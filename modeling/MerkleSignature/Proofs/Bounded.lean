import MerkleSignature.Proofs.Bytes
import MerkleSignature.Proofs.Outcome

/-!
# Computations within bounds

Lists and natural numbers have no bounds. A computation that is carried out in buffers of fixed
sizes and in machine words does: it must not reach beyond the end of a buffer, take a larger number
from a smaller one, or shift a word by as many bits as it has. A bounded computation asks at each of
these steps whether it stays within its bounds, and stops with a fault where it does not. A fault is
not a refusal: a refusal is an answer, which the caller may handle, and a fault ends the program.

A bounded computation is compared with an ordinary one, which cannot have faults. Where the two are
equal, no bound is ever left.
-/

namespace MerkleSignature

/-- How a computation leaves its bounds. -/
inductive Fault where
  /-- Reading or writing beyond the end of a buffer, or writing more or less than there is room
  for. -/
  | range
  /-- Shifting a word by as many bits as it has, or by more. -/
  | shift
  /-- A difference below zero, a sum beyond the word or a division by zero. -/
  | arithmetic
  deriving DecidableEq

/-- A computation that can refuse, and that can leave its bounds. -/
abbrev Bounded := ExceptT Error (Except Fault)

namespace Bounded

variable {α β : Type}

/-- After an ordinary step a bounded computation may rely on what the step returned. -/
theorem lift_bind_eq {x : Except Error α} {f : α → Bounded β} {g : α → Except Error β}
    (h : ∀ a, x = .ok a → f a = liftM (g a)) : liftM x >>= f = liftM (x >>= g) := by
  cases x with
  | error e => rfl
  | ok a => exact h a rfl

/-- A list is computed within bounds when each of its elements is. -/
theorem mapM_eq_lift {f : α → Bounded β} {g : α → Except Error β} {xs : List α}
    (h : ∀ x ∈ xs, f x = liftM (g x)) : xs.mapM f = liftM (xs.mapM g) := by
  induction xs with
  | nil => rfl
  | cons x xs ih =>
    rw [List.mapM_cons, List.mapM_cons, h x List.mem_cons_self,
      ih fun y hy => h y (List.mem_cons_of_mem x hy)]
    refine lift_bind_eq fun b _ => ?_
    exact lift_bind_eq fun bs _ => rfl

/-- A bounded computation does what an ordinary one does, without a fault, on values that are
related. -/
def Simulates (R : α → β → Prop) (x : Bounded α) : Except Error β → Prop
  | .error e => x = liftM (.error e : Except Error α)
  | .ok b => ∃ a, x = pure a ∧ R a b

section Simulation

variable {γ δ : Type} {R : α → β → Prop} {S : γ → δ → Prop} {x : Bounded α} {y : Except Error β}

theorem simulates_pure {a : α} {b : β} (h : R a b) : Simulates R (pure a) (.ok b) := ⟨a, rfl, h⟩

/-- An ordinary computation simulates itself. -/
theorem simulates_lift {R : α → α → Prop} {x : Except Error α} (h : ∀ a, x = .ok a → R a a) :
    Simulates R (liftM x) x := by
  cases x with
  | error e => rfl
  | ok a => exact ⟨a, rfl, h a rfl⟩

/-- A chain of two steps simulates another one when its steps do. -/
theorem Simulates.bind {f : α → Bounded γ} {g : β → Except Error δ} (h : Simulates R x y)
    (hstep : ∀ a b, R a b → Simulates S (f a) (g b)) : Simulates S (x >>= f) (y >>= g) := by
  cases y with
  | error e =>
    obtain rfl : x = liftM (.error e : Except Error α) := h
    rfl
  | ok b =>
    obtain ⟨a, rfl, hab⟩ := h
    exact hstep a b hab

/-- On the same values simulation is equality. -/
theorem Simulates.eq_lift {x : Bounded β} (h : Simulates Eq x y) : x = liftM y := by
  cases y with
  | error e => exact h
  | ok b =>
    obtain ⟨_, rfl, rfl⟩ := h
    rfl

end Simulation

/-- Go on where something is so; elsewhere that is a fault. -/
def require (fault : Fault) (p : Prop) [Decidable p] : Bounded Unit :=
  if p then pure () else ExceptT.mk (.error fault)

/-- Where something is so, it does not matter that it is asked for. -/
theorem require_bind {fault : Fault} {p : Prop} [Decidable p] (h : p) (f : Unit → Bounded β) :
    require fault p >>= f = f () := by
  rw [require, if_pos h, pure_bind]

section Words

/-- The difference of two numbers. -/
def subtract (a b : Nat) : Bounded Nat := do
  require .arithmetic (b ≤ a)
  return a - b

/-- The sum of two 32-bit words. -/
def addWord (a b : Nat) : Bounded Nat := do
  require .arithmetic (a + b < 2 ^ 32)
  return a + b

/-- The quotient of two numbers. -/
def divide (a b : Nat) : Bounded Nat := do
  require .arithmetic (b ≠ 0)
  return a / b

/-- Shift a word of some bits to the left. -/
def shiftLeft (bits a count : Nat) : Bounded Nat := do
  require .shift (count < bits)
  return a <<< count % 2 ^ bits

/-- Shift a word of some bits to the right. -/
def shiftRight (bits a count : Nat) : Bounded Nat := do
  require .shift (count < bits)
  return a >>> count

variable {a b bits count : Nat}

theorem subtract_eq (h : b ≤ a) : subtract a b = pure (a - b) := require_bind h _

theorem addWord_eq (h : a + b < 2 ^ 32) : addWord a b = pure (a + b) := require_bind h _

theorem divide_eq (h : b ≠ 0) : divide a b = pure (a / b) := require_bind h _

theorem shiftRight_eq (h : count < bits) : shiftRight bits a count = pure (a >>> count) :=
  require_bind h _

/-- A shift to the left loses no bit when the result fits the word. -/
theorem shiftLeft_eq (h : count < bits) (hfit : a * 2 ^ count < 2 ^ bits) :
    shiftLeft bits a count = pure (a * 2 ^ count) := by
  rw [shiftLeft, require_bind h, Nat.shiftLeft_eq, Nat.mod_eq_of_lt hfit]

end Words

section Buffers

/-- The elements of a buffer from `start` up to `stop`. -/
def slice (buffer : List α) (start stop : Nat) : Bounded (List α) := do
  require .range (start ≤ stop ∧ stop ≤ buffer.length)
  return (buffer.drop start).take (stop - start)

/-- Write elements over those of a buffer from `start` up to `stop`. -/
def copy (buffer : List α) (start stop : Nat) (part : List α) : Bounded (List α) := do
  require .range (start ≤ stop ∧ stop ≤ buffer.length ∧ part.length = stop - start)
  return buffer.take start ++ (part ++ buffer.drop stop)

/-- Write fields into a buffer from `start` on, each one up to where the next one starts. -/
def copyFields (buffer : List α) (start : Nat) : List (Nat × List α) → Bounded (List α)
  | [] => pure buffer
  | (stop, field) :: fields => do
    let buffer ← copy buffer start stop field
    copyFields buffer stop fields

/-- Mask the bytes of a buffer from `start` up to `stop`. -/
def mask (buffer : Bytes) (start stop : Nat) (mask : Bytes) : Bounded Bytes := do
  let part ← slice buffer start stop
  require .range (part.length = mask.length)
  copy buffer start stop (Bytes.xor part mask)

/-- Cut a buffer into pieces of one size. -/
def cut (size : Nat) (buffer : List α) : Bounded (List (List α)) := do
  require .arithmetic (size ≠ 0)
  return chunks size buffer

variable {before part after : List α} {start stop : Nat}

theorem cut_eq {size : Nat} (h : size ≠ 0) (buffer : List α) :
    cut size buffer = pure (chunks size buffer) := require_bind h _

/-- What stands in a buffer is read. -/
theorem slice_eq (hstart : before.length = start) (hstop : start + part.length = stop) :
    slice (before ++ (part ++ after)) start stop = pure part := by
  rw [slice, require_bind (by simp; omega), List.drop_left' hstart, ← hstop,
    Nat.add_sub_cancel_left, List.take_left]

/-- What stands at the front of a buffer is read. -/
theorem slice_front (hstop : part.length = stop) : slice (part ++ after) 0 stop = pure part :=
  show slice ([] ++ (part ++ after)) 0 stop = pure part from
    slice_eq rfl ((Nat.zero_add _).trans hstop)

/-- What is written into a buffer takes the place of as many elements. -/
theorem copy_eq {old : List α} (hstart : before.length = start) (hstop : start + old.length = stop)
    (hlength : part.length = old.length) :
    copy (before ++ (old ++ after)) start stop part = pure (before ++ (part ++ after)) := by
  rw [copy, require_bind (by simp; omega), List.take_left' hstart, ← List.append_assoc before old,
    List.drop_left' (by simp; omega)]

/-- What is written to the front of a buffer takes the place of as many elements. -/
theorem copy_front {old : List α} (hstop : old.length = stop) (hlength : part.length = old.length) :
    copy (old ++ after) 0 stop part = pure (part ++ after) :=
  show copy ([] ++ (old ++ after)) 0 stop part = pure ([] ++ (part ++ after)) from
    copy_eq rfl ((Nat.zero_add _).trans hstop) hlength

/-- Fields fill a buffer from a position on, without a gap. -/
def Fill : (start : Nat) → List (Nat × List α) → Prop
  | _, [] => True
  | start, (stop, field) :: fields => start + field.length = stop ∧ Fill stop fields

/-- What is written into the rest of a buffer is joined to what stands in front. -/
theorem copyFields_eq {fields : List (Nat × List α)} (hstart : before.length = start)
    (hfields : Fill start fields) (hfit : (fields.flatMap Prod.snd).length ≤ after.length) :
    copyFields (before ++ after) start fields =
      pure (before ++ (fields.flatMap Prod.snd ++
        after.drop (fields.flatMap Prod.snd).length)) := by
  induction fields generalizing before after start with
  | nil => simp [copyFields]
  | cons entry fields ih =>
    obtain ⟨stop, field⟩ := entry
    obtain ⟨hstop, hrest⟩ := hfields
    rw [List.flatMap_cons, List.length_append] at hfit
    dsimp only at hfit
    have htake : (after.take field.length).length = field.length :=
      List.length_take_of_le (by omega)
    have hcopy : copy (before ++ after) start stop field =
        pure ((before ++ field) ++ after.drop field.length) := by
      rw [← List.take_append_drop field.length after,
        copy_eq hstart (htake.symm ▸ hstop) htake.symm, List.drop_left' htake, List.append_assoc]
    rw [copyFields, hcopy, pure_bind, ih (by rw [List.length_append, hstart, hstop]) hrest
      (by rw [List.length_drop]; omega), List.drop_drop, List.flatMap_cons, List.length_append]
    simp only [List.append_assoc]

/-- Fields that are written to the front of a buffer take the place of as many elements. -/
theorem copyFields_front {buffer : List α} {fields : List (Nat × List α)} (part : List α)
    (hfields : Fill 0 fields) (hpart : fields.flatMap Prod.snd = part)
    (hfit : part.length ≤ buffer.length) :
    copyFields buffer 0 fields = pure (part ++ buffer.drop part.length) := by
  subst hpart
  change copyFields ([] ++ buffer) 0 fields = pure ([] ++ _)
  exact copyFields_eq rfl hfields hfit

/-- Bytes are masked where they stand. -/
theorem mask_eq {before part after other : Bytes} (hstart : before.length = start)
    (hstop : start + part.length = stop) (hother : part.length = other.length) :
    mask (before ++ (part ++ after)) start stop other =
      pure (before ++ (Bytes.xor part other ++ after)) := by
  rw [mask, slice_eq hstart hstop, pure_bind, require_bind hother,
    copy_eq hstart hstop (by simp; omega)]

/-- Bytes at the front of a buffer are masked. -/
theorem mask_front {part after other : Bytes} (hstop : part.length = stop)
    (hother : part.length = other.length) :
    mask (part ++ after) 0 stop other = pure (Bytes.xor part other ++ after) :=
  show mask ([] ++ (part ++ after)) 0 stop other = pure ([] ++ (Bytes.xor part other ++ after)) from
    mask_eq rfl ((Nat.zero_add _).trans hstop) hother

section Pieces

variable {size i : Nat} {xs : List (List α)}

/-- A concatenation around one of its pieces. -/
theorem flatten_eq_around (hi : i < xs.length) :
    xs.flatten = (xs.take i).flatten ++ (xs[i] ++ (xs.drop (i + 1)).flatten) := by
  rw [← List.flatten_cons, List.getElem_cons_drop, ← List.flatten_append, List.take_append_drop]

variable (h : ∀ piece ∈ xs, piece.length = size) (hi : i < xs.length)
include h hi

/-- The pieces in front of one piece take up as many elements as they have. -/
theorem length_flatten_take : (xs.take i).flatten.length = i * size := by
  rw [length_flatten_of_forall fun piece hpiece => h piece (List.mem_of_mem_take hpiece),
    List.length_take_of_le (Nat.le_of_lt hi)]

/-- Among pieces of one size each is read where it stands. -/
theorem slice_flatten : slice xs.flatten (i * size) ((i + 1) * size) = pure xs[i] := by
  rw [flatten_eq_around hi]
  exact slice_eq (length_flatten_take h hi) (by rw [h _ (List.getElem_mem hi), Nat.succ_mul])

/-- Among pieces of one size each is replaced where it stands. -/
theorem copy_flatten {part : List α} (hpart : part.length = size) :
    copy xs.flatten (i * size) ((i + 1) * size) part = pure (xs.set i part).flatten := by
  have hpiece : xs[i].length = size := h _ (List.getElem_mem hi)
  rw [flatten_eq_around hi, copy_eq (length_flatten_take h hi) (by rw [hpiece, Nat.succ_mul])
    (hpart.trans hpiece.symm), List.set_eq_take_append_cons_drop, if_pos hi, List.flatten_append,
    List.flatten_cons]

end Pieces

end Buffers

/-- Two bytes behind the end of a buffer are a fault, one byte inside it is not. -/
example : (slice [1, 2, 3] 2 4).run = .error .range ∧
    (slice [1, 2, 3] 2 3).run = .ok (.ok [3]) := ⟨rfl, rfl⟩

end Bounded

end MerkleSignature
