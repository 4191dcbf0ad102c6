import MerkleSignature.Proofs.Digest.Calls
import MerkleSignature.Proofs.Winternitz.Checksum
import MerkleSignature.Proofs.Winternitz.OneTime
import MerkleSignature.Proofs.Winternitz.Recorded

/-!
# What two one-time signatures with one public key have in common

A verifier that recovers a public key walks every chain from the revealed element to its end. Two
walks on one part of a chain that end in the same element start in the same element, or somewhere
on the way they hash different elements to the same one.

So two signatures that lead to the same public key, for blocks of their own, are the same for the
same block unless their chains collide. For different blocks the checksum provides a chain on which
the second signature reveals an earlier element than the first; that element leads to the one that
the first signature reveals, or the chains collide above.
-/

namespace MerkleSignature.Winternitz.OneTime

variable {s : OneTime} {position : TreePosition} {leaf i : Nat}

/-- The byte string that is hashed for a step on a chain. -/
def nextInput (s : OneTime) (position : TreePosition) (leaf chain step : Nat) (element : Bytes) :
    Except Error Bytes := do
  let address := position.oneTimeAddress leaf chain step
  let key ← s.digest.prfAddress s.publicSeed address
  let mask ← s.digest.prfAddress s.publicSeed (address.withKeyAndMask 1)
  let input := Bytes.xor element mask
  checkLength "F key" key s.digest.size
  checkLength "F input" input s.digest.size
  return s.digest.framed .chain key input

/-- The next element of a chain is the hash of one byte string. -/
theorem next_eq (step : Nat) (element : Bytes) :
    s.next position leaf i step element =
      s.nextInput position leaf i step element >>= fun input => .ok (s.digest.hash input) := by
  simp only [next, nextInput, Digest.chainHash, bind_assoc, pure_bind, Digest.keyed]
  rfl

/-- An element of `n` bytes can be told from what is hashed. -/
theorem nextInput_inj {step : Nat} {element element' input : Bytes}
    (helement : element.length = s.digest.size) (helement' : element'.length = s.digest.size)
    (h : s.nextInput position leaf i step element = .ok input)
    (h' : s.nextInput position leaf i step element' = .ok input) : element = element' := by
  obtain ⟨key, hkey, h⟩ := bind_eq_ok_iff.1 h
  obtain ⟨mask, hmask, h⟩ := bind_eq_ok_iff.1 h
  obtain ⟨-, h⟩ := checkLength_bind_eq_ok_iff.1 h
  obtain ⟨hmasked, h⟩ := checkLength_bind_eq_ok_iff.1 h
  rw [nextInput, hkey, ok_bind, hmask, ok_bind] at h'
  obtain ⟨-, h'⟩ := checkLength_bind_eq_ok_iff.1 h'
  obtain ⟨-, h'⟩ := checkLength_bind_eq_ok_iff.1 h'
  rw [Bytes.length_xor] at hmasked
  have hxor := (Digest.framed_inj rfl ((Except.ok.inj h).trans (Except.ok.inj h').symm)).2
  exact Bytes.xor_right_inj (helement.trans helement'.symm) (by omega) hxor

/-- The next element of a chain, with a record. -/
def recordNext (s : OneTime) (position : TreePosition) (leaf chain step : Nat) (element : Bytes) :
    Recorded HashCall Bytes :=
  s.digest.recordHash (.chain position leaf chain step) element
    (s.nextInput position leaf chain step element)

/-- The public key that a signature of a block commits to, with a record. -/
def recordRecover (s : OneTime) (signature block : Bytes) (position : TreePosition) (leaf : Nat) :
    Recorded HashCall Bytes := do
  checkLength "WOTS+ signature" signature s.params.signatureSize
  let digits ← s.params.messageDigits block
  let ends ← Recorded.forEach
    (fun ((element, digit), i) =>
      s.recordChain (s.recordNext position leaf i) element digit (s.params.w - 1 - digit))
    ((chunks s.params.n signature).zip digits).zipIdx
  return ends.flatten

/-- The recorded step is the step. -/
theorem value_recordNext (step : Nat) (element : Bytes) :
    (s.recordNext position leaf i step element).value = s.next position leaf i step element := by
  rw [recordNext, Digest.value_recordHash, ← next_eq]

/-- The recorded recovery is the recovery. -/
@[simp] theorem value_recordRecover (signature block : Bytes) :
    (s.recordRecover signature block position leaf).value =
      s.recover signature block position leaf := by
  simp only [recordRecover, recover, Recorded.value_bind, Recorded.value_lift,
    Recorded.value_forEach, value_recordChain value_recordNext, Recorded.value_pure]
  rfl

section Walks

variable {start steps : Nat} {element element' last : Bytes} {calls calls' : List HashCall}

/-- A step on a chain yields `n` bytes. -/
theorem length_of_recordNext {step : Nat}
    (h : (s.recordNext position leaf i step element).run = .ok (last, calls)) :
    last.length = s.digest.size := by
  obtain ⟨bytes, -, rfl, -⟩ := Digest.run_recordHash_eq_ok_iff.1 h
  exact Digest.length_hash ..

/-- A walk from an element of `n` bytes yields `n` bytes. -/
theorem length_of_recordWalk (helement : element.length = s.digest.size)
    (h : (recordWalk (s.recordNext position leaf i) start steps element).run = .ok (last, calls)) :
    last.length = s.digest.size := by
  induction steps generalizing start element calls with
  | zero =>
    obtain ⟨rfl, -⟩ := Recorded.run_pure_eq_ok_iff.1 h
    exact helement
  | succ steps ih =>
    obtain ⟨following, _, _, hnext, hwalk, -⟩ := Recorded.run_bind_eq_ok_iff.1 h
    exact ih (length_of_recordNext hnext) hwalk

/-- Two walks on one part of a chain that end in the same element start in the same element or
collide. -/
theorem start_eq_or_collision (helement : element.length = s.digest.size)
    (helement' : element'.length = s.digest.size)
    (h : (recordWalk (s.recordNext position leaf i) start steps element).run = .ok (last, calls))
    (h' : (recordWalk (s.recordNext position leaf i) start steps element').run =
      .ok (last, calls')) :
    element = element' ∨ Collision s.digest calls calls' := by
  induction steps generalizing start element element' calls calls' with
  | zero =>
    obtain ⟨rfl, -⟩ := Recorded.run_pure_eq_ok_iff.1 h
    obtain ⟨rfl, -⟩ := Recorded.run_pure_eq_ok_iff.1 h'
    exact .inl rfl
  | succ steps ih =>
    obtain ⟨following, _, _, hnext, hwalk, rfl⟩ := Recorded.run_bind_eq_ok_iff.1 h
    obtain ⟨following', _, _, hnext', hwalk', rfl⟩ := Recorded.run_bind_eq_ok_iff.1 h'
    rcases ih (length_of_recordNext hnext) (length_of_recordNext hnext') hwalk hwalk' with
      rfl | hcollision
    · exact (Digest.operands_eq_or_collision (fun _ => nextInput_inj helement helement') hnext
        hnext').imp_right Collision.append_left
    · exact .inr hcollision.append_right

/-- A walk of some steps and then of some more passes through the element between them. -/
theorem exists_middle_of_recordWalk {first second : Nat}
    (h : (recordWalk (s.recordNext position leaf i) start (first + second) element).run =
      .ok (last, calls)) :
    ∃ middle before after,
      (recordWalk (s.recordNext position leaf i) start first element).run = .ok (middle, before) ∧
      (recordWalk (s.recordNext position leaf i) (start + first) second middle).run =
        .ok (last, after) ∧
      calls = before ++ after := by
  induction first generalizing start element calls with
  | zero =>
    rw [Nat.zero_add] at h
    exact ⟨element, [], calls, rfl, h, rfl⟩
  | succ first ih =>
    rw [show first + 1 + second = first + second + 1 by omega] at h
    obtain ⟨following, begin, _, hnext, hwalk, rfl⟩ := Recorded.run_bind_eq_ok_iff.1 h
    obtain ⟨middle, before, after, hbefore, hafter, rfl⟩ := ih hwalk
    refine ⟨middle, begin ++ before, after, ?_, ?_, (List.append_assoc ..).symm⟩
    · exact Recorded.run_bind_eq_ok_iff.2 ⟨following, begin, before, hnext, hbefore, rfl⟩
    · rwa [show start + (first + 1) = start + 1 + first by omega]

/-- Walking within a chain is walking from an element of `n` bytes. -/
theorem recordWalk_of_recordChain
    (h : (s.recordChain (s.recordNext position leaf i) element start steps).run =
      .ok (last, calls)) :
    start + steps ≤ s.params.w - 1 ∧ element.length = s.digest.size ∧
      (recordWalk (s.recordNext position leaf i) start steps element).run = .ok (last, calls) := by
  rw [recordChain] at h
  split at h
  · exact absurd h Recorded.run_error_ne_ok
  · rename_i hfit
    obtain ⟨_, hlength, hwalk⟩ := Recorded.run_lift_bind_eq_ok_iff.1 h
    exact ⟨Nat.not_lt.1 hfit, length_eq_of_checkLength hlength, hwalk⟩

end Walks

/-- What a recorded recovery does on each chain: it walks from the revealed element, at the position
that the digit names, to the end of the chain. -/
structure Climbs (s : OneTime) (position : TreePosition) (leaf : Nat) (elements : List Bytes)
    (digits : List Nat) (ends : List Bytes) (calls : List HashCall) : Prop where
  length_elements : elements.length = s.params.length
  length_digits : digits.length = s.params.length
  length_ends : ends.length = s.params.length
  walk : ∀ (i : Nat) (h : i < elements.length) (h' : i < digits.length) (h'' : i < ends.length),
    digits[i] ≤ s.params.w - 1 ∧ elements[i].length = s.digest.size ∧
      ∃ walked ⊆ calls, (recordWalk (s.recordNext position leaf i) digits[i]
        (s.params.w - 1 - digits[i]) elements[i]).run = .ok (ends[i], walked)

/-- Each chain is walked. -/
theorem walks_of_forEach {entries : List (Bytes × Nat)} {ends : List Bytes} {calls : List HashCall}
    (h : (Recorded.forEach (fun ((element, digit), i) =>
      s.recordChain (s.recordNext position leaf i) element digit (s.params.w - 1 - digit))
        entries.zipIdx).run = .ok (ends, calls)) :
    ends.length = entries.length ∧
      ∀ (i : Nat) (hi : i < entries.length) (hi' : i < ends.length),
        entries[i].2 ≤ s.params.w - 1 ∧ entries[i].1.length = s.digest.size ∧
          ∃ walked ⊆ calls, (recordWalk (s.recordNext position leaf i) entries[i].2
            (s.params.w - 1 - entries[i].2) entries[i].1).run = .ok (ends[i], walked) := by
  obtain ⟨hcount, hchains⟩ := Recorded.run_getElem_of_forEach h
  rw [List.length_zipIdx] at hcount
  refine ⟨hcount, fun i hi hi' => ?_⟩
  obtain ⟨walked, hwalked, hchain⟩ := hchains i (by rwa [List.length_zipIdx]) hi'
  rw [List.getElem_zipIdx, Nat.zero_add] at hchain
  obtain ⟨hfit, hlength, hwalk⟩ := recordWalk_of_recordChain hchain
  exact ⟨(Nat.le_add_right ..).trans hfit, hlength, walked, hwalked, hwalk⟩

/-- A recorded recovery cuts the signature into elements, walks on each chain and joins the ends. -/
theorem exists_climbs {signature block publicKey : Bytes} {calls : List HashCall}
    (h : (s.recordRecover signature block position leaf).run = .ok (publicKey, calls)) :
    ∃ digits ends, s.params.messageDigits block = .ok digits ∧
      (chunks s.params.n signature).flatten = signature ∧ publicKey = ends.flatten ∧
      (∀ last ∈ ends, last.length = s.digest.size) ∧
      s.Climbs position leaf (chunks s.params.n signature) digits ends calls := by
  obtain ⟨_, hsize, h⟩ := Recorded.run_lift_bind_eq_ok_iff.1 h
  obtain ⟨digits, hdigits, h⟩ := Recorded.run_lift_bind_eq_ok_iff.1 h
  obtain ⟨ends, hends, rfl⟩ := Recorded.run_bind_pure_eq_ok_iff.1 h
  obtain ⟨hcount, hwalks⟩ := walks_of_forEach hends
  have hsignature : signature.length = s.params.length * s.params.n :=
    (length_eq_of_checkLength hsize).trans (Params.signatureSize_ofDigest s.digest s.width)
  have hpos : 0 < s.params.n := s.digest.size_pos
  have helements : (chunks s.params.n signature).length = s.params.length := by
    rw [chunks, length_pieces, hsignature, Nat.mul_div_cancel _ hpos]
  obtain ⟨digits', hdigits', hlength, -⟩ := s.params.exists_messageDigits
    (Params.messageDigits_eq_ok_iff.1 hdigits).1
  obtain rfl := Except.ok.inj (hdigits.symm.trans hdigits')
  rw [List.length_zip, helements, hlength, Nat.min_self] at hcount
  refine ⟨digits, ends, hdigits, ?_, rfl, fun last hlast => ?_,
    helements, hlength, hcount, fun i hi hi' hi'' => ?_⟩
  · rw [chunks, flatten_pieces, hsignature, Nat.mul_div_cancel _ hpos, Nat.mul_comm, ← hsignature,
      List.take_length]
  · obtain ⟨i, hi, rfl⟩ := List.getElem_of_mem hlast
    obtain ⟨-, hlength', _, -, hwalk⟩ := hwalks i (by simp; omega) hi
    exact length_of_recordWalk hlength' hwalk
  · obtain ⟨hdigit, helement, part, hpart, hwalk⟩ := hwalks i (by simp; omega) hi''
    simp only [List.getElem_zip] at hdigit helement hwalk
    exact ⟨hdigit, helement, part, hpart, hwalk⟩

/-- A recovered public key has one element of `n` bytes per chain. -/
theorem length_of_recordRecover {signature block publicKey : Bytes} {calls : List HashCall}
    (h : (s.recordRecover signature block position leaf).run = .ok (publicKey, calls)) :
    publicKey.length = s.params.length * s.digest.size := by
  obtain ⟨digits, ends, -, -, rfl, hends, hclimbs⟩ := exists_climbs h
  rw [length_flatten_of_forall hends, hclimbs.length_ends]

/-- A public key that can be recovered has one element of `n` bytes per chain. -/
theorem length_of_recover {signature block publicKey : Bytes}
    (h : s.recover signature block position leaf = .ok publicKey) :
    publicKey.length = s.params.length * s.digest.size := by
  rw [← value_recordRecover] at h
  obtain ⟨_, hrecord⟩ := Recorded.value_eq_ok_iff.1 h
  exact length_of_recordRecover hrecord

namespace Climbs

variable {elements elements' : List Bytes} {digits digits' : List Nat} {ends : List Bytes}
  {calls calls' : List HashCall}

/-- Climbs from the positions of the same digits to the same ends start from the same elements, or
their chains collide. -/
theorem elements_eq_or_collision (h : s.Climbs position leaf elements digits ends calls)
    (h' : s.Climbs position leaf elements' digits ends calls') :
    elements = elements' ∨ Collision s.digest calls calls' := by
  by_cases hcollision : Collision s.digest calls calls'
  · exact .inr hcollision
  have hcount := h.length_elements
  have hcount' := h'.length_elements
  have hdigits := h.length_digits
  have hends := h.length_ends
  refine .inl (List.ext_getElem (hcount.trans hcount'.symm) fun i hi hi' => ?_)
  obtain ⟨-, hlength, walked, hwalked, hwalk⟩ := h.walk i hi (by omega) (by omega)
  obtain ⟨-, hlength', walked', hwalked', hwalk'⟩ := h'.walk i hi' (by omega) (by omega)
  exact (start_eq_or_collision hlength hlength' hwalk hwalk').resolve_right
    fun hfound => hcollision (hfound.mono hwalked hwalked')

/-- On a chain on which the second of two climbs to the same ends starts lower, it passes through
the element that the first one starts from, or their chains collide. -/
theorem chain_eq_or_collision (h : s.Climbs position leaf elements digits ends calls)
    (h' : s.Climbs position leaf elements' digits' ends calls') {i : Nat} (hi : i < digits.length)
    (hi' : i < digits'.length) (hlt : digits'[i] < digits[i]) :
    (∃ element element', elements[i]? = some element ∧ elements'[i]? = some element' ∧
      s.chain element' digits'[i] (digits[i] - digits'[i]) position leaf i = .ok element) ∨
      Collision s.digest calls calls' := by
  by_cases hcollision : Collision s.digest calls calls'
  · exact .inr hcollision
  have hcount := h.length_digits
  have helement : i < elements.length := by have := h.length_elements; omega
  have helement' : i < elements'.length := by have := h'.length_elements; omega
  have hend : i < ends.length := by have := h.length_ends; omega
  obtain ⟨hdigit, hlength, walked, hwalked, hwalk⟩ := h.walk i helement hi hend
  obtain ⟨-, hlength', walked', hwalked', hwalk'⟩ := h'.walk i helement' hi' hend
  -- The second walk goes up to where the first one starts, and from there to the same end.
  rw [show s.params.w - 1 - digits'[i] = digits[i] - digits'[i] + (s.params.w - 1 - digits[i]) by
    omega] at hwalk'
  obtain ⟨middle, before, after, hbefore, hafter, rfl⟩ := exists_middle_of_recordWalk hwalk'
  rw [show digits'[i] + (digits[i] - digits'[i]) = digits[i] by omega] at hafter
  obtain rfl : elements[i] = middle :=
    (start_eq_or_collision hlength (length_of_recordWalk hlength' hbefore) hwalk
      hafter).resolve_right fun hfound => hcollision
        (hfound.mono hwalked fun c hc => hwalked' (List.mem_append_right _ hc))
  refine .inl ⟨_, _, List.getElem?_eq_getElem helement, List.getElem?_eq_getElem helement', ?_⟩
  rw [chain, if_neg (by omega), checkLength_eq_ok (show _ = s.params.n from hlength'), ok_bind,
    ← value_recordWalk value_recordNext]
  exact Recorded.value_eq_ok_iff.2 ⟨before, hbefore⟩

end Climbs

/-- On one chain the second of two signatures reveals an element before the one that the first
reveals, and that element leads to it. -/
def Precedes (s : OneTime) (position : TreePosition) (leaf : Nat)
    (signature block signature' block' : Bytes) : Prop :=
  ∃ (digits digits' : List Nat) (i digit digit' : Nat) (element element' : Bytes),
    s.params.messageDigits block = .ok digits ∧ s.params.messageDigits block' = .ok digits' ∧
    digits[i]? = some digit ∧ digits'[i]? = some digit' ∧
    (chunks s.params.n signature)[i]? = some element ∧
    (chunks s.params.n signature')[i]? = some element' ∧
    digit' < digit ∧ s.chain element' digit' (digit - digit') position leaf i = .ok element

/-- Two signatures that lead to one public key sign the same block with the same elements, or their
chains collide, or the second one precedes the first. -/
theorem signature_eq_or_collision_or_precedes
    {signature block signature' block' publicKey : Bytes} {calls calls' : List HashCall}
    (h : (s.recordRecover signature block position leaf).run = .ok (publicKey, calls))
    (h' : (s.recordRecover signature' block' position leaf).run = .ok (publicKey, calls')) :
    (block = block' ∧ signature = signature') ∨ Collision s.digest calls calls' ∨
      s.Precedes position leaf signature block signature' block' := by
  obtain ⟨digits, ends, hdigits, hsignature, rfl, hends, hclimbs⟩ := exists_climbs h
  obtain ⟨digits', ends', hdigits', hsignature', hkey, hends', hclimbs'⟩ := exists_climbs h'
  obtain rfl : ends = ends' := by
    rw [← chunks_flatten s.digest.size_pos hends, hkey, chunks_flatten s.digest.size_pos hends']
  by_cases hblock : block = block'
  · -- The digits are the same, so on every chain the elements are the same.
    subst hblock
    obtain rfl := Except.ok.inj (hdigits.symm.trans hdigits')
    rcases hclimbs.elements_eq_or_collision hclimbs' with helements | hcollision
    · exact .inl ⟨rfl, by rw [← hsignature, helements, hsignature']⟩
    · exact .inr (.inl hcollision)
  · -- On some chain the second signature has to walk further.
    obtain ⟨i, hi', hi, hlt⟩ := Params.exists_digit_lt
      (Params.checksumFits_ofDigest s.digest s.width) (Ne.symm hblock) hdigits' hdigits
    rcases hclimbs.chain_eq_or_collision hclimbs' hi hi' hlt with
      ⟨element, element', helement, helement', hchain⟩ | hcollision
    · exact .inr (.inr ⟨digits, digits', i, digits[i], digits'[i], element, element', hdigits,
        hdigits', List.getElem?_eq_getElem hi, List.getElem?_eq_getElem hi', helement, helement',
        hlt, hchain⟩)
    · exact .inr (.inl hcollision)

end MerkleSignature.Winternitz.OneTime
