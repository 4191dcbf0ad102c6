import MerkleSignature.Address
import MerkleSignature.Proofs.Bytes.Digits
import MerkleSignature.Proofs.Outcome

/-!
# Which byte strings are addresses

The fields of an encoded address have fixed sizes, and every word fits its field. So each field is
read back from its place, and the type word tells what the three words after it stand for. Different
addresses therefore have different encodings.

In the other direction, 32 bytes fall into seven fields without a rest. Only the type word and the
padding word of a hash-tree target can be wrong, and the type word is looked at first. From all
other byte strings an address is read whose words are those of the fields, so it is encoded as the
same bytes again.
-/

namespace MerkleSignature.Address

/-- A number is read from a field that starts with it. -/
theorem field_here {width x : Nat} (hx : x < 256 ^ width) (rest : Bytes) :
    field (Bytes.toBigEndian width x ++ rest) 0 width = x := by
  rw [field, List.drop_zero, List.take_left' (Bytes.length_toBigEndian ..)]
  exact Bytes.ofBigEndian_toBigEndian hx

/-- A field is read behind a field before it. -/
theorem field_behind (before x : Nat) (rest : Bytes) (offset width : Nat) :
    field (Bytes.toBigEndian before x ++ rest) (offset + before) width =
      field rest offset width := by
  rw [field, Nat.add_comm, ← List.drop_drop, List.drop_left' (Bytes.length_toBigEndian ..)]
  rfl

/-- A word fits a field of four bytes. -/
theorem word_lt (x : UInt32) : x.toNat < 256 ^ 4 := x.toNat_lt

/-- The fields of an encoded address. -/
theorem fields_encode (a : Address) :
    field a.encode 0 4 = a.position.layer.toNat ∧ field a.encode 4 8 = a.position.tree.toNat ∧
      field a.encode 12 4 = a.target.typeWord.toNat ∧
      field a.encode 16 4 = a.target.words.1.toNat ∧
      field a.encode 20 4 = a.target.words.2.1.toNat ∧
      field a.encode 24 4 = a.target.words.2.2.toNat ∧
      field a.encode 28 4 = a.keyAndMask.toNat := by
  have htree : a.position.tree.toNat < 256 ^ 8 := a.position.tree.toNat_lt
  have hlast : ∀ width x : Nat, Bytes.toBigEndian width x = Bytes.toBigEndian width x ++ [] :=
    fun width x => (List.append_nil _).symm
  simp only [encode, Bytes.prependBigEndian_eq_append]
  rw [hlast 4 a.keyAndMask.toNat]
  refine ⟨?_, ?_, ?_, ?_, ?_, ?_, ?_⟩
  · rw [field_here (word_lt _)]
  · rw [field_behind 4 _ _ 0, field_here htree]
  · rw [field_behind 4 _ _ 8, field_behind 8 _ _ 0, field_here (word_lt _)]
  · rw [field_behind 4 _ _ 12, field_behind 8 _ _ 4, field_behind 4 _ _ 0, field_here (word_lt _)]
  · rw [field_behind 4 _ _ 16, field_behind 8 _ _ 8, field_behind 4 _ _ 4, field_behind 4 _ _ 0,
      field_here (word_lt _)]
  · rw [field_behind 4 _ _ 20, field_behind 8 _ _ 12, field_behind 4 _ _ 8, field_behind 4 _ _ 4,
      field_behind 4 _ _ 0, field_here (word_lt _)]
  · rw [field_behind 4 _ _ 24, field_behind 8 _ _ 16, field_behind 4 _ _ 12, field_behind 4 _ _ 8,
      field_behind 4 _ _ 4, field_behind 4 _ _ 0, field_here (word_lt _)]

/-- A target is read back from its type word and its words. -/
theorem Target.ofWords_words (target : Target) :
    Target.ofWords target.typeWord.toNat target.words.1.toNat target.words.2.1.toNat
      target.words.2.2.toNat = .ok target := by
  cases target <;> simp [Target.ofWords, Target.typeWord, Target.words]

/-- An encoded address is read back. -/
theorem decode_encode (a : Address) : decode a.encode = .ok a := by
  obtain ⟨hlayer, htree, htype, hfirst, hsecond, hthird, hmask⟩ := fields_encode a
  rw [decode, checkLength_eq_ok (length_encode a), htype, hfirst, hsecond, hthird,
    Target.ofWords_words, hlayer, htree, hmask]
  simp

/-- A field that lies in a byte string is written again as it was read, in front of what follows
it. -/
theorem toBigEndian_field {bytes : Bytes} {offset width : Nat}
    (hfit : offset + width ≤ bytes.length) :
    Bytes.toBigEndian width (field bytes offset width) ++ bytes.drop (offset + width) =
      bytes.drop offset := by
  have hlength : ((bytes.drop offset).take width).length = width := by
    rw [List.length_take, List.length_drop]
    omega
  have hwritten := Bytes.toBigEndian_ofBigEndian ((bytes.drop offset).take width)
  rw [hlength] at hwritten
  rw [field, hwritten, ← List.drop_drop, List.take_append_drop]

/-- The number in a field of four bytes is a word. -/
theorem field_lt (bytes : Bytes) (offset : Nat) : field bytes offset 4 < 2 ^ 32 := by
  refine Nat.lt_of_lt_of_le (Bytes.ofBigEndian_lt _) ?_
  exact Nat.pow_le_pow_right (by decide) (List.length_take_le 4 _)

/-- The number in a field of eight bytes is a double word. -/
theorem field_lt_double (bytes : Bytes) (offset : Nat) : field bytes offset 8 < 2 ^ 64 := by
  refine Nat.lt_of_lt_of_le (Bytes.ofBigEndian_lt _) ?_
  exact Nat.pow_le_pow_right (by decide) (List.length_take_le 8 _)

/-- A type word and three words stand for a target, unless the type word is unknown or a hash-tree
target does not leave the first word zero. -/
def Target.Known (typeWord first : Nat) : Prop :=
  typeWord = 0 ∨ typeWord = 1 ∨ typeWord = 2 ∧ first = 0

/-- The target that known words stand for has these words. -/
theorem Target.exists_ofWords {typeWord first second third : Nat} (h : Known typeWord first)
    (hfirst : first < 2 ^ 32) (hsecond : second < 2 ^ 32) (hthird : third < 2 ^ 32) :
    ∃ target, ofWords typeWord first second third = .ok target ∧
      target.typeWord.toNat = typeWord ∧ target.words.1.toNat = first ∧
      target.words.2.1.toNat = second ∧ target.words.2.2.toNat = third := by
  have hword : ∀ x < 2 ^ 32, (UInt32.ofNat x).toNat = x := fun x => UInt32.toNat_ofNat_of_lt'
  rcases h with rfl | rfl | ⟨rfl, rfl⟩
  · exact ⟨_, rfl, rfl, hword first hfirst, hword second hsecond, hword third hthird⟩
  · exact ⟨_, rfl, rfl, hword first hfirst, hword second hsecond, hword third hthird⟩
  · exact ⟨_, rfl, rfl, rfl, hword second hsecond, hword third hthird⟩

/-- No target has a type word above 2. -/
theorem Target.ofWords_of_two_lt {typeWord : Nat} (h : 2 < typeWord) (first second third : Nat) :
    ofWords typeWord first second third = .error (.invalidAddressType typeWord) := by
  obtain ⟨other, rfl⟩ : ∃ other, typeWord = other + 3 := ⟨typeWord - 3, by omega⟩
  rfl

section Reading

variable {bytes : Bytes}

/-- Byte strings of another length are refused. -/
theorem decode_of_length_ne (hlength : bytes.length ≠ size) :
    decode bytes = .error (.invalidLength "address" size bytes.length) := by
  rw [decode, checkLength, if_neg hlength]
  rfl

variable (hlength : bytes.length = size)
include hlength

/-- A byte string of the right length is read as its words are. -/
theorem decode_of_ofWords_error {e : Error}
    (h : Target.ofWords (field bytes 12 4) (field bytes 16 4) (field bytes 20 4)
      (field bytes 24 4) = .error e) : decode bytes = .error e := by
  rw [decode, checkLength_eq_ok hlength, ok_bind, h]
  rfl

/-- A byte string with known words is read as an address that is encoded as this byte string. -/
theorem exists_decode (h : Target.Known (field bytes 12 4) (field bytes 16 4)) :
    ∃ a, decode bytes = .ok a ∧ a.encode = bytes := by
  obtain ⟨target, htarget, htype, hfirst, hsecond, hthird⟩ :=
    Target.exists_ofWords h (field_lt bytes 16) (field_lt bytes 20) (field_lt bytes 24)
  refine ⟨⟨⟨.ofNat (field bytes 0 4), .ofNat (field bytes 4 8)⟩, target,
    .ofNat (field bytes 28 4)⟩, ?_, ?_⟩
  · rw [decode, checkLength_eq_ok hlength, ok_bind, htarget]
    rfl
  · have hfields : ∀ offset width, offset + width ≤ 32 →
        Bytes.toBigEndian width (field bytes offset width) ++ bytes.drop (offset + width) =
          bytes.drop offset :=
      fun offset width hfit => toBigEndian_field (hlength ▸ hfit)
    have hend : bytes.drop 32 = [] := List.drop_of_length_le (Nat.le_of_eq hlength)
    simp only [encode, Bytes.prependBigEndian_eq_append, htype, hfirst, hsecond, hthird,
      UInt32.toNat_ofNat_of_lt' (field_lt bytes 0), UInt32.toNat_ofNat_of_lt' (field_lt bytes 28),
      UInt64.toNat_ofNat_of_lt' (field_lt_double bytes 4)]
    -- From the last field to the first, each one continues what stands behind it.
    have hlast := hfields 28 4 (by decide)
    rw [hend, List.append_nil] at hlast
    rw [hlast, hfields 24 4 (by decide), hfields 20 4 (by decide), hfields 16 4 (by decide),
      hfields 12 4 (by decide), hfields 4 8 (by decide), hfields 0 4 (by decide), List.drop_zero]

end Reading

/-- Addresses and accepted byte strings correspond one to one. Every address is read back from its
encoding. Byte strings that do not have 32 bytes are refused, of the others those with an unknown
type word, and then those of a hash-tree target with a padding word that is not zero. All others are
read as an address that is encoded as the same bytes. -/
theorem encode_bijective_onto_accepted :
    (∀ a : Address, decode a.encode = .ok a) ∧
    ∀ bytes : Bytes,
      (bytes.length ≠ 32 → decode bytes = .error (.invalidLength "address" 32 bytes.length)) ∧
      (bytes.length = 32 →
        (field bytes 12 4 ∉ [0, 1, 2] →
          decode bytes = .error (.invalidAddressType (field bytes 12 4))) ∧
        (field bytes 12 4 = 2 ∧ field bytes 16 4 ≠ 0 →
          decode bytes = .error (.invalidEncoding "hash tree address padding" 0 4)) ∧
        (field bytes 12 4 ∈ [0, 1] ∨ field bytes 12 4 = 2 ∧ field bytes 16 4 = 0 →
          ∃ a, decode bytes = .ok a ∧ a.encode = bytes)) := by
  refine ⟨decode_encode, fun bytes => ⟨decode_of_length_ne, fun hlength => ⟨?_, ?_, ?_⟩⟩⟩
  · intro hunknown
    apply decode_of_ofWords_error hlength
    apply Target.ofWords_of_two_lt
    simp only [List.mem_cons, List.not_mem_nil, or_false, not_or] at hunknown
    omega
  · rintro ⟨htype, hpadding⟩
    apply decode_of_ofWords_error hlength
    rw [htype, Target.ofWords]
    exact if_neg hpadding
  · intro hknown
    apply exists_decode hlength
    rcases hknown with hknown | hknown
    · simp only [List.mem_cons, List.not_mem_nil, or_false] at hknown
      exact hknown.imp_right .inl
    · exact .inr (.inr hknown)

/-- Different addresses have different encodings. -/
theorem encode_injective : Function.Injective encode := by
  intro a b h
  have hread : decode a.encode = decode b.encode := congrArg decode h
  rw [decode_encode, decode_encode] at hread
  exact Except.ok.inj hread

end MerkleSignature.Address
