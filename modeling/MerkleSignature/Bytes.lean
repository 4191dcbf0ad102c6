/-!
# Byte strings

Keys, messages, nodes and signatures are byte strings. They are lists, so that concatenation,
cutting and comparison are those of the list library, and every format of the scheme is a
concatenation of fields.
-/

-- Every power of natural numbers is the one of the core library, whatever else a module imports.
attribute [instance (high), default_instance high + 1] instPowNat

namespace MerkleSignature

/-- A byte string, first byte first. -/
abbrev Bytes := List UInt8

namespace Bytes

/-- The bitwise exclusive or of two byte strings, as long as the shorter one. -/
def xor : Bytes → Bytes → Bytes
  | a :: as, b :: bs => (a ^^^ b) :: xor as bs
  | _, _ => []

/-- The exclusive or acts byte by byte. -/
theorem xor_eq_zipWith (a b : Bytes) : xor a b = List.zipWith (· ^^^ ·) a b := by
  induction a generalizing b with
  | nil => cases b <;> rfl
  | cons x xs ih =>
    cases b with
    | nil => rfl
    | cons y ys => simp [xor, ih]

/-- Bytes without a partner are dropped. -/
@[simp] theorem length_xor (a b : Bytes) : (xor a b).length = min a.length b.length := by
  simp [xor_eq_zipWith]

end Bytes

/-- The first `count` consecutive pieces of `size` elements each. -/
def pieces {α : Type} (size : Nat) : (count : Nat) → List α → List (List α)
  | 0, _ => []
  | count + 1, xs => xs.take size :: pieces size count (xs.drop size)

/-- Cut a list into pieces of exactly `size` elements; a shorter remainder is dropped. -/
def chunks {α : Type} (size : Nat) (xs : List α) : List (List α) :=
  pieces size (xs.length / size) xs

/-- There are as many pieces as asked for. -/
@[simp] theorem length_pieces {α : Type} (size count : Nat) (xs : List α) :
    (pieces size count xs).length = count := by
  induction count generalizing xs with
  | zero => rfl
  | succ count ih => simp [pieces, ih]

/-- Pieces that fit into the list have exactly the asked size. -/
theorem length_of_mem_pieces {α : Type} {size count : Nat} {xs piece : List α}
    (hsize : size * count ≤ xs.length) (hpiece : piece ∈ pieces size count xs) :
    piece.length = size := by
  induction count generalizing xs with
  | zero => simp [pieces] at hpiece
  | succ count ih =>
    rw [Nat.mul_succ] at hsize
    rcases List.mem_cons.1 hpiece with rfl | hrest
    · simp; omega
    · exact ih (by simp; omega) hrest

/-- Cutting and joining again gives back the part that was cut. -/
theorem flatten_pieces {α : Type} (size count : Nat) (xs : List α) :
    (pieces size count xs).flatten = xs.take (size * count) := by
  induction count generalizing xs with
  | zero => simp [pieces]
  | succ count ih => rw [pieces, List.flatten_cons, ih, Nat.mul_succ, Nat.add_comm, List.take_add]

end MerkleSignature
