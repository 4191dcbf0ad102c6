import MerkleSignature.Proofs.Bounded
import MerkleSignature.Proofs.Winternitz.Checksum

/-!
# Message digits within bounds

Digits are read from one byte at a time. The byte is kept in a word beside the number of its bits
that have not been read yet; a digit is taken off by shifting the word, and the next byte is fetched
when no bits are left. As the width of a digit divides that of a byte, the number of bits reaches
zero exactly. The checksum is added up and shifted in a word, and written into four bytes.
-/

namespace MerkleSignature

open Bounded

namespace Bytes

/-- The number of bits that are left of a word, the word, and the bytes behind it. When no bits are
left the next byte is fetched, and a zero byte behind the end. -/
def fetch : (bits word : Nat) → Bytes → Nat × Nat × Bytes
  | 0, _, bytes => (8, (bytes.headD 0).toNat, bytes.tail)
  | bits + 1, word, bytes => (bits + 1, word, bytes)

/-- Read digits of some width under a mask, from what is left of a word and from the bytes behind
it. -/
def readDigits (width mask : Nat) : (count bits word : Nat) → Bytes → Bounded (List Nat)
  | 0, _, _, _ => pure []
  | count + 1, bits, word, bytes => do
    let (bits, word, bytes) := fetch bits word bytes
    let bits ← subtract bits width
    let shifted ← shiftRight 32 word bits
    let digits ← readDigits width mask count bits word bytes
    return (shifted &&& mask) :: digits

/-- The first digits of some width in a byte string that zero bytes continue. -/
def boundedDigits (width count : Nat) (bytes : Bytes) : Bounded (List Nat) := do
  let mask ← subtract (← shiftLeft 32 1 width) 1
  readDigits width mask count 0 0 bytes

/-- The digits of some width in what is left of a word. -/
def digitsLeft (width word : Nat) : (left : Nat) → List Nat
  | 0 => []
  | left + 1 => word >>> (width * left) % 2 ^ width :: digitsLeft width word left

theorem digitsLeft_eq_map (width word left : Nat) :
    digitsLeft width word left =
      (List.range left).map fun i => word >>> (width * left - width * (i + 1)) % 2 ^ width := by
  induction left with
  | zero => rfl
  | succ left ih =>
    rw [digitsLeft, ih, List.range_succ_eq_map, List.map_cons, List.map_map]
    congr 1
    · rw [Nat.zero_add, Nat.mul_one, Nat.mul_succ, Nat.add_sub_cancel]
    · refine List.map_congr_left fun i _ => ?_
      rw [Function.comp_apply, Nat.mul_succ width left, Nat.mul_succ width (i + 1),
        Nat.add_sub_add_right]

/-- Nothing is left of a word that is zero but zeros. -/
theorem digitsLeft_zero (width left : Nat) : digitsLeft width 0 left = List.replicate left 0 := by
  induction left with
  | zero => rfl
  | succ left ih => rw [digitsLeft, ih, Nat.zero_shiftRight, Nat.zero_mod, List.replicate_succ]

section Widths

variable {width : Nat} (hwidth : width ∣ 8)
include hwidth

/-- The digits of a byte are those of a word of eight bits. -/
theorem byteDigits_eq_digitsLeft (byte : UInt8) :
    byteDigits width byte = digitsLeft width byte.toNat (8 / width) := by
  rw [digitsLeft_eq_map, Nat.mul_div_cancel' hwidth, byteDigits]

/-- A digit is taken off what is left of a word. -/
theorem readDigits_succ {count left word : Nat} {bytes : Bytes} (hleft : width * (left + 1) ≤ 8) :
    readDigits width (2 ^ width - 1) (count + 1) (width * (left + 1)) word bytes =
      (word >>> (width * left) % 2 ^ width :: ·) <$>
        readDigits width (2 ^ width - 1) count (width * left) word bytes := by
  have hpos : 0 < width := Nat.pos_of_dvd_of_pos hwidth (by decide)
  obtain ⟨bits, hbits⟩ := Nat.exists_eq_add_one_of_ne_zero
    (Nat.mul_pos hpos (Nat.succ_pos left)).ne'
  have hdigit : width ≤ bits + 1 := hbits ▸ Nat.le_mul_of_pos_right width (Nat.succ_pos left)
  have hrest : bits + 1 - width = width * left := by
    rw [← hbits, Nat.mul_succ, Nat.add_sub_cancel]
  have hsmall : width * left ≤ 8 := Nat.le_trans (Nat.mul_le_mul_left _ (Nat.le_succ left)) hleft
  rw [readDigits, hbits, fetch]
  dsimp only
  rw [subtract_eq hdigit, pure_bind, hrest, shiftRight_eq (by omega), pure_bind,
    Nat.and_two_pow_sub_one_eq_mod]
  rfl

/-- Digits are read as they stand, and zeros behind the end. -/
theorem readDigits_eq {count left zeros : Nat} (word : Nat) (bytes : Bytes)
    (hleft : width * left ≤ 8) (hzeros : count ≤ zeros) :
    readDigits width (2 ^ width - 1) count (width * left) word bytes =
      pure ((digitsLeft width word left ++ (bytes.flatMap (byteDigits width) ++
        List.replicate zeros 0)).take count) := by
  induction count generalizing left word bytes with
  | zero => rfl
  | succ count ih =>
    have hzeros' : count ≤ zeros := Nat.le_of_succ_le hzeros
    -- A digit of a word of which something is left; the other case fetches such a word first.
    have htake {left word : Nat} {bytes : Bytes} (hleft : width * (left + 1) ≤ 8) :
        readDigits width (2 ^ width - 1) (count + 1) (width * (left + 1)) word bytes =
          pure ((digitsLeft width word (left + 1) ++ (bytes.flatMap (byteDigits width) ++
            List.replicate zeros 0)).take (count + 1)) := by
      have hrest := Nat.le_trans (Nat.mul_le_mul_left width (Nat.le_succ left)) hleft
      rw [readDigits_succ hwidth hleft, ih word bytes hrest hzeros']
      rfl
    cases left with
    | succ left => exact htake hleft
    | zero =>
      obtain ⟨more, hmore⟩ := Nat.exists_eq_add_one_of_ne_zero
        (Nat.div_pos (Nat.le_of_dvd (by decide) hwidth)
          (Nat.pos_of_dvd_of_pos hwidth (by decide))).ne'
      have hbyte : width * (more + 1) = 8 := by rw [← hmore, Nat.mul_div_cancel' hwidth]
      have hfetch : readDigits width (2 ^ width - 1) (count + 1) (width * 0) word bytes =
          readDigits width (2 ^ width - 1) (count + 1) (width * (more + 1))
            (bytes.headD 0).toNat bytes.tail := by
        rw [hbyte]
        rfl
      rw [hfetch, htake (Nat.le_of_eq hbyte)]
      cases bytes with
      | cons byte bytes =>
        rw [List.flatMap_cons, byteDigits_eq_digitsLeft hwidth, hmore, List.append_assoc]
        rfl
      | nil =>
        change pure ((digitsLeft width 0 (more + 1) ++ ([] ++ List.replicate zeros 0)).take _) =
          pure (([] ++ ([] ++ List.replicate zeros 0)).take _)
        simp only [digitsLeft_zero, List.nil_append, List.replicate_append_replicate,
          List.take_replicate]
        rw [Nat.min_eq_left (by omega), Nat.min_eq_left hzeros]

/-- Reading digits one by one gives the digits. -/
theorem boundedDigits_eq (count : Nat) (bytes : Bytes) :
    boundedDigits width count bytes = pure (digits width count bytes) := by
  have hsmall : width ≤ 8 := Nat.le_of_dvd (by decide) hwidth
  have hbase : 1 * 2 ^ width < 2 ^ 32 := by
    rw [Nat.one_mul]
    exact Nat.pow_lt_pow_right (by decide) (by omega)
  rw [boundedDigits, shiftLeft_eq (by omega) hbase, pure_bind, Nat.one_mul,
    subtract_eq (Nat.two_pow_pos width), pure_bind]
  change readDigits width _ count (width * 0) 0 bytes = _
  exact readDigits_eq hwidth 0 bytes (Nat.zero_le 8) (Nat.le_refl count)

end Widths

end Bytes

namespace Winternitz

/-- How far digits are from their largest value, added up in a word. -/
def boundedChecksum (w : Nat) : (sum : Nat) → List Nat → Bounded Nat
  | sum, [] => pure sum
  | sum, digit :: digits => do
    let most ← subtract w 1
    let sum ← addWord sum (← subtract most digit)
    boundedChecksum w sum digits

/-- A sum that fits its word is added up. -/
theorem boundedChecksum_eq {w sum : Nat} {digits : List Nat} (hw : 0 < w)
    (hdigits : ∀ digit ∈ digits, digit < w) (hfit : sum + shortfall w digits < 2 ^ 32) :
    boundedChecksum w sum digits = pure (sum + shortfall w digits) := by
  induction digits generalizing sum with
  | nil => rfl
  | cons digit digits ih =>
    have hdigit : digit < w := hdigits digit List.mem_cons_self
    rw [shortfall_cons] at hfit ⊢
    rw [boundedChecksum, subtract_eq hw, pure_bind, subtract_eq (by omega), pure_bind,
      addWord_eq (by omega), pure_bind,
      ih (fun d h => hdigits d (List.mem_cons_of_mem digit h)) (by omega), Nat.add_assoc]

namespace Params

/-- The shift that moves the checksum digits to the front of their bytes. -/
def boundedChecksumShift (p : Params) : Bounded Nat := do
  let rest ← subtract 8 (p.checksumLength * p.digitBits % 8)
  return rest % 8

/-- The digits of a block of `n` bytes and of their checksum, which is written into four bytes. -/
def boundedMessageDigits (p : Params) (block : Bytes) : Bounded (List Nat) := do
  checkLength "WOTS+ message" block p.n
  let digits ← Bytes.boundedDigits p.digitBits p.messageLength block
  let checksum ← boundedChecksum p.w 0 digits
  let checksum ← shiftLeft 32 checksum (← p.boundedChecksumShift)
  let buffer ← copyFields (List.replicate 4 0) 0
    [(p.checksumBytes, Bytes.toBigEndian p.checksumBytes checksum)]
  let checksumDigits ←
    Bytes.boundedDigits p.digitBits p.checksumLength (← slice buffer 0 p.checksumBytes)
  return digits ++ checksumDigits

/-- Where the largest checksum fits its word, the digits stay within their bounds. -/
theorem boundedMessageDigits_eq {p : Params} (hfit : p.ChecksumFits) (block : Bytes) :
    p.boundedMessageDigits block = liftM (p.messageDigits block) := by
  refine lift_bind_eq fun _ _ => ?_
  dsimp only
  obtain ⟨digits, hdigits⟩ : ∃ digits, Bytes.digits p.digitBits p.messageLength block = digits :=
    ⟨_, rfl⟩
  have hlength : digits.length = p.messageLength := hdigits ▸ Bytes.length_digits ..
  have hbound : ∀ digit ∈ digits, digit < p.w := fun digit h => Bytes.digits_lt (hdigits ▸ h)
  have hpos : 0 < p.w := Nat.two_pow_pos _
  have hword := shortfall_mul_lt_word hfit hlength
  have hsum : 0 + shortfall p.w digits < 2 ^ 32 := by
    rw [Nat.zero_add]
    exact Nat.lt_of_le_of_lt (Nat.le_mul_of_pos_right _ (Nat.two_pow_pos _)) hword
  have hshift : p.boundedChecksumShift = pure p.checksumShift := by
    rw [boundedChecksumShift, subtract_eq (Nat.le_of_lt (Nat.mod_lt _ (by decide)))]
    rfl
  have hcount : p.checksumShift < 32 := Nat.lt_trans (Nat.mod_lt _ (by decide)) (by decide)
  obtain ⟨field, hfield⟩ : ∃ field, Bytes.toBigEndian p.checksumBytes
      (shortfall p.w digits * 2 ^ p.checksumShift) = field := ⟨_, rfl⟩
  have hbytes : field.length = p.checksumBytes := hfield ▸ Bytes.length_toBigEndian ..
  have hroom := p.checksumBits_add_shift.2
  rw [Bytes.boundedDigits_eq p.digitBits_dvd, hdigits, pure_bind,
    boundedChecksum_eq hpos hbound hsum, pure_bind, hshift, pure_bind, Nat.zero_add,
    shiftLeft_eq hcount hword, pure_bind, hfield,
    copyFields_front field (by simp [Fill, hbytes]) (by simp) (by simp; omega), pure_bind,
    slice_front hbytes, pure_bind, Bytes.boundedDigits_eq p.digitBits_dvd, pure_bind,
    checksumDigits, toNat_shifted_checksum hfit hlength hbound, hfield]
  rfl

end Params

end Winternitz

end MerkleSignature
