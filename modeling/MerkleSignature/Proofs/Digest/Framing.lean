import Mathlib.Data.Set.Function
import MerkleSignature.Proofs.Bytes
import MerkleSignature.Proofs.Digest.Keyed

/-!
# Framed byte strings tell their calls

The four keyed functions give the digest one byte string each: their number in `n` bytes, the key
and the input, without any lengths. What keeps these byte strings apart are the lengths that the
functions check. The number tells the function, the function tells the length of the key, and what
is left is the input. The key of a message hash is made of three fields of `n` bytes each, of which
the last one holds the index in full.
-/

namespace MerkleSignature

namespace Purpose

/-- The number of a keyed function is its own. -/
theorem number_injective : Function.Injective number := by
  intro first second h
  cases first <;> cases second <;> simp_all [number]

/-- The number of a keyed function fits its field. -/
theorem number_lt (d : Digest) (purpose : Purpose) : purpose.number < 256 ^ d.size := by
  apply Nat.lt_of_lt_of_le (show purpose.number < 256 ^ 1 by cases purpose <;> decide)
  exact Nat.pow_le_pow_right (by decide) d.size_pos

/-- The length of the keys of a function. -/
def keySize (d : Digest) : Purpose → Nat
  | message => 3 * d.size
  | chain | node | derive => d.size

/-- The length of the inputs of a function, if it is fixed. -/
def inputSize? (d : Digest) : Purpose → Option Nat
  | chain => some d.size
  | node => some (2 * d.size)
  | message => none
  | derive => some Address.size

end Purpose

/-- A call of one of the four keyed functions. -/
structure KeyedCall where
  purpose : Purpose
  key : Bytes
  input : Bytes
  deriving DecidableEq

namespace KeyedCall

variable (d : Digest)

/-- What the called function answers. -/
def answer (call : KeyedCall) : Except Error Bytes :=
  match call.purpose with
  | .chain => d.chainHash call.key call.input
  | .node => d.nodeHash call.key call.input
  | .message => d.messageHash call.key call.input
  | .derive => d.prf call.key call.input

/-- The key and the input have the lengths that the function expects. -/
def Fits (call : KeyedCall) : Prop :=
  call.key.length = call.purpose.keySize d ∧
    ∀ size ∈ call.purpose.inputSize? d, call.input.length = size

instance (call : KeyedCall) : Decidable (call.Fits d) := inferInstanceAs (Decidable (_ ∧ _))

/-- The byte string that the digest is given. -/
def framed (call : KeyedCall) : Bytes := d.framed call.purpose call.key call.input

variable {d}

/-- A call is answered when its lengths fit, with the hash of its framed byte string. -/
theorem answer_eq_ok_iff {call : KeyedCall} {output : Bytes} :
    call.answer d = .ok output ↔ call.Fits d ∧ output = d.hash (call.framed d) := by
  obtain ⟨purpose, key, input⟩ := call
  rw [eq_comm (a := output)]
  cases purpose <;>
    simp [answer, Digest.chainHash, Digest.nodeHash, Digest.messageHash, Digest.prf,
      checkLength_bind_eq_ok_iff, Digest.keyed, Fits, framed, Purpose.keySize, Purpose.inputSize?,
      and_assoc]

/-- The framed byte string of a call whose lengths fit tells the function, the key and the input. -/
theorem framed_injOn : Set.InjOn (framed d) {call | call.Fits d} := by
  rintro ⟨purpose, key, input⟩ hfits ⟨purpose', key', input'⟩ hfits' h
  simp only [framed, Digest.framed, Bytes.prependBigEndian_eq_append] at h
  obtain ⟨hnumber, hoperands⟩ := List.append_inj h (by simp)
  obtain rfl : purpose = purpose' :=
    Purpose.number_injective
      (Bytes.toBigEndian_inj (purpose.number_lt d) (purpose'.number_lt d) hnumber)
  -- One function has keys of one length.
  obtain ⟨rfl, rfl⟩ := List.append_inj hoperands (hfits.1.trans hfits'.1.symm)
  rfl

end KeyedCall

/-- A call that hashes a message, with the index of its signature. -/
structure MessageCall where
  randomness : Bytes
  root : Bytes
  index : UInt64
  message : Bytes
  deriving DecidableEq

namespace MessageCall

variable (d : Digest)

/-- What the hash of the message is. -/
def answer (call : MessageCall) : Except Error Bytes :=
  d.messageDigest call.randomness call.root call.index.toNat call.message

/-- The randomness and the root have `n` bytes. -/
def Fits (call : MessageCall) : Prop :=
  call.randomness.length = d.size ∧ call.root.length = d.size

/-- The call of `H_msg` that hashes the message. -/
def keyedCall (call : MessageCall) : KeyedCall where
  purpose := .message
  key := call.randomness ++ call.root ++ Bytes.toBigEndian d.size call.index.toNat
  input := call.message

/-- The byte string that the digest is given. -/
def framed (call : MessageCall) : Bytes := (call.keyedCall d).framed d

variable {d}

/-- The fields of a fitting call make up a key of `H_msg`. -/
theorem Fits.keyedCall {call : MessageCall} (h : call.Fits d) : (call.keyedCall d).Fits d := by
  constructor
  · simp only [MessageCall.keyedCall, Purpose.keySize, List.length_append, Bytes.length_toBigEndian,
      h.1, h.2]
    omega
  · simp [MessageCall.keyedCall, Purpose.inputSize?]

/-- A message is hashed when the lengths fit, as its framed byte string. -/
theorem answer_eq_ok_iff {call : MessageCall} {output : Bytes} :
    call.answer d = .ok output ↔ call.Fits d ∧ output = d.hash (call.framed d) := by
  have hkeyed : call.answer d = .ok output ↔
      call.Fits d ∧ (call.keyedCall d).answer d = .ok output := by
    simp only [answer, Digest.messageDigest, checkLength_bind_eq_ok_iff, Fits, and_assoc]
    rfl
  rw [hkeyed, KeyedCall.answer_eq_ok_iff]
  constructor
  · rintro ⟨hfits, -, houtput⟩
    exact ⟨hfits, houtput⟩
  · rintro ⟨hfits, houtput⟩
    exact ⟨hfits, hfits.keyedCall, houtput⟩

/-- The index fits into a field of `n` bytes. -/
theorem index_lt (call : MessageCall) : call.index.toNat < 256 ^ d.size := by
  apply Nat.lt_of_lt_of_le call.index.toNat_lt
  have h8 : 8 ≤ d.size := by cases d <;> decide
  calc 2 ^ 64 = 256 ^ 8 := by decide
    _ ≤ 256 ^ d.size := Nat.pow_le_pow_right (by decide) h8

/-- The framed byte string of a message whose lengths fit tells the randomness, the root, the index
and the message. -/
theorem framed_injOn : Set.InjOn (framed d) {call | call.Fits d} := by
  intro call hfits call' hfits' h
  have hcall := KeyedCall.framed_injOn hfits.keyedCall hfits'.keyedCall h
  obtain ⟨-, hkey, hmessage⟩ := KeyedCall.mk.inj hcall
  obtain ⟨hseeds, hindex⟩ := List.append_inj hkey (by simp [hfits.1, hfits.2, hfits'.1, hfits'.2])
  obtain ⟨hrandomness, hroot⟩ := List.append_inj hseeds (hfits.1.trans hfits'.1.symm)
  have hnumber := Bytes.toBigEndian_inj call.index_lt call'.index_lt hindex
  cases call
  cases call'
  simp_all [UInt64.toNat_inj]

end MessageCall

/-- A byte string that one of the keyed functions gives to the digest tells which function was
called and with what. One that is hashed for a message tells the randomness, the root, the index and
the message, and only `H_msg` can give it. -/
theorem framed_tells_call (d : Digest) :
    (∀ (call : KeyedCall) (output : Bytes),
      call.answer d = .ok output ↔ call.Fits d ∧ output = d.hash (call.framed d)) ∧
    Set.InjOn (KeyedCall.framed d) {call | call.Fits d} ∧
    (∀ (call : MessageCall) (output : Bytes),
      call.answer d = .ok output ↔ call.Fits d ∧ output = d.hash (call.framed d)) ∧
    Set.InjOn (MessageCall.framed d) {call | call.Fits d} ∧
    ∀ (call : MessageCall) (other : KeyedCall), call.Fits d → other.Fits d →
      other.purpose ≠ .message → other.framed d ≠ call.framed d := by
  refine ⟨fun _ _ => KeyedCall.answer_eq_ok_iff, KeyedCall.framed_injOn,
    fun _ _ => MessageCall.answer_eq_ok_iff, MessageCall.framed_injOn, ?_⟩
  intro call other hfits hother hpurpose h
  apply hpurpose
  rw [KeyedCall.framed_injOn hother hfits.keyedCall h]
  rfl

/-- With SHA-256, `F` and `PRF` take keys and inputs of the same lengths, and as many bytes are
hashed to join two nodes as for a message without bytes. The framed byte strings differ. -/
theorem framed_tells_call_sameLengths :
    let zeros := List.replicate 32 (0 : UInt8)
    let step : KeyedCall := ⟨.chain, zeros, zeros⟩
    let derivation : KeyedCall := ⟨.derive, zeros, zeros⟩
    let joining : KeyedCall := ⟨.node, zeros, zeros ++ zeros⟩
    let hashing : MessageCall := ⟨zeros, zeros, 0, []⟩
    (step.Fits .sha256 ∧ derivation.Fits .sha256 ∧
        step.framed .sha256 ≠ derivation.framed .sha256) ∧
      joining.Fits .sha256 ∧ hashing.Fits .sha256 ∧
        joining.framed .sha256 ≠ hashing.framed .sha256 := by
  intro zeros step derivation joining hashing
  have hstep : step.Fits .sha256 := by decide
  have hderivation : derivation.Fits .sha256 := by decide
  have hjoining : joining.Fits .sha256 := by decide
  have hhashing : hashing.Fits .sha256 := ⟨rfl, rfl⟩
  obtain ⟨-, hcalls, -, -, hmessages⟩ := framed_tells_call .sha256
  refine ⟨⟨hstep, hderivation, fun h => ?_⟩, hjoining, hhashing, ?_⟩
  · exact nomatch congrArg KeyedCall.purpose (hcalls hstep hderivation h)
  · exact hmessages hashing joining hhashing hjoining (fun h => nomatch h)

end MerkleSignature
