import MerkleSignature.Proofs.Winternitz.Extraction

/-!
# What a forged one-time signature shows

A signature of another block that leads to the public key of a leaf reveals, on some chain, an
element before the one that the leaf's own signature reveals. From there a verifier walks past the
position of the honest element to the end of the chain. Either the walk comes through the honest
element, or at that position it is beside the chain of the leaf and joins it later. Where it joins,
two different elements are masked and hashed under one key to the same element.
-/

namespace MerkleSignature.Winternitz.OneTime

variable {s : OneTime} {position : TreePosition} {leaf i : Nat}

/-- At a step of a chain two elements are given to `F` as different inputs under the same key, with
the same output. -/
def MeetAt (s : OneTime) (position : TreePosition) (leaf chain step : Nat)
    (element element' : Bytes) : Prop :=
  ∃ key mask output,
    s.digest.prfAddress s.publicSeed (position.oneTimeAddress leaf chain step) = .ok key ∧
    s.digest.prfAddress s.publicSeed
      ((position.oneTimeAddress leaf chain step).withKeyAndMask 1) = .ok mask ∧
    Bytes.xor element mask ≠ Bytes.xor element' mask ∧
    s.digest.chainHash key (Bytes.xor element mask) = .ok output ∧
    s.digest.chainHash key (Bytes.xor element' mask) = .ok output

/-- Different elements with the same next element meet there. -/
theorem meetAt_of_next_eq {step : Nat} {element element' following : Bytes}
    (helement : element.length = s.digest.size) (helement' : element'.length = s.digest.size)
    (hne : element ≠ element') (h : s.next position leaf i step element = .ok following)
    (h' : s.next position leaf i step element' = .ok following) :
    s.MeetAt position leaf i step element element' := by
  obtain ⟨key, hkey, h⟩ := bind_eq_ok_iff.1 h
  obtain ⟨mask, hmask, hhash⟩ := bind_eq_ok_iff.1 h
  rw [next, hkey, ok_bind, hmask, ok_bind] at h'
  refine ⟨key, mask, following, hkey, hmask, ?_, hhash, h'⟩
  intro hsame
  obtain ⟨-, hinput⟩ := checkLength_bind_eq_ok_iff.1 hhash
  -- The masked element has its full length, so the mask is not shorter than the element.
  have hmasked := (checkLength_bind_eq_ok_iff.1 hinput).1
  rw [Bytes.length_xor] at hmasked
  exact hne (Bytes.xor_right_inj (helement.trans helement'.symm) (by omega) hsame)

/-- Two walks on one part of a chain that start in different elements and end in the same one meet
at a step in between. -/
theorem exists_meetAt (hseed : s.publicSeed.length = s.digest.size) {start steps : Nat}
    {element element' last : Bytes} (helement : element.length = s.digest.size)
    (helement' : element'.length = s.digest.size) (hne : element ≠ element')
    (h : s.walk position leaf i start steps element = .ok last)
    (h' : s.walk position leaf i start steps element' = .ok last) :
    ∃ passed before before', passed < steps ∧
      s.walk position leaf i start passed element = .ok before ∧
      s.walk position leaf i start passed element' = .ok before' ∧
      s.MeetAt position leaf i (start + passed) before before' := by
  induction steps generalizing start element element' with
  | zero => exact absurd ((Except.ok.inj h).trans (Except.ok.inj h').symm) hne
  | succ steps ih =>
    have hyields : Yields s.digest.size (s.next position leaf i start element) :=
      next_yields hseed helement start
    have hyields' : Yields s.digest.size (s.next position leaf i start element') :=
      next_yields hseed helement' start
    obtain ⟨following, hnext, hlength⟩ := hyields
    obtain ⟨following', hnext', hlength'⟩ := hyields'
    rw [walk, hnext, ok_bind] at h
    rw [walk, hnext', ok_bind] at h'
    by_cases hmeet : following = following'
    · subst hmeet
      exact ⟨0, element, element', Nat.succ_pos steps, rfl, rfl,
        meetAt_of_next_eq helement helement' hne hnext hnext'⟩
    · obtain ⟨passed, before, before', hlt, hbefore, hbefore', hfound⟩ :=
        ih hlength hlength' hmeet h h'
      refine ⟨passed + 1, before, before', Nat.succ_lt_succ hlt, ?_, ?_, ?_⟩
      · rw [walk, hnext, ok_bind, hbefore]
      · rw [walk, hnext', ok_bind, hbefore']
      · rwa [show start + (passed + 1) = start + 1 + passed by omega]

/-- An earlier element from which a verifier arrives at the end of a leaf's chain leads to the
leaf's element at a later position, or the two walks meet at or above that position. -/
theorem chain_eq_or_meetAt (hseed : s.publicSeed.length = s.digest.size)
    {secret element : Bytes} (hsecret : secret.length = s.digest.size)
    (helement : element.length = s.digest.size) {digit digit' : Nat} (hlt : digit' < digit)
    (hdigit : digit ≤ s.params.w - 1)
    (hwalk : s.walk position leaf i digit' (s.params.w - 1 - digit') element =
      .ok (s.elementAt position leaf i secret (s.params.w - 1))) :
    s.chain element digit' (digit - digit') position leaf i =
        .ok (s.elementAt position leaf i secret digit) ∨
      ∃ step honest forged, digit ≤ step ∧ step < s.params.w - 1 ∧
        s.chain secret 0 step position leaf i = .ok honest ∧
        s.chain element digit' (step - digit') position leaf i = .ok forged ∧
        s.MeetAt position leaf i step honest forged := by
  obtain ⟨hhonest, hlength⟩ := walk_eq_ok hseed hsecret position leaf i digit
  have hend := (walk_eq_ok hseed hsecret position leaf i (s.params.w - 1)).1
  obtain ⟨middle, hmiddle, hlength'⟩ :=
    walk_yields hseed position leaf i helement digit' (digit - digit')
  -- Both walks are cut at the position of the later element.
  rw [show s.params.w - 1 = digit + (s.params.w - 1 - digit) by omega, walk_add, hhonest, ok_bind,
    Nat.zero_add, show digit + (s.params.w - 1 - digit) = s.params.w - 1 by omega] at hend
  rw [show s.params.w - 1 - digit' = digit - digit' + (s.params.w - 1 - digit) by omega, walk_add,
    hmiddle, ok_bind, show digit' + (digit - digit') = digit by omega] at hwalk
  by_cases hsame : middle = s.elementAt position leaf i secret digit
  · left
    rw [chain_eq_walk (by omega) helement, hmiddle, hsame]
  · right
    obtain ⟨passed, honest, forged, hpassed, hbefore, hbefore', hmeet⟩ :=
      exists_meetAt hseed hlength hlength' (Ne.symm hsame) hend hwalk
    refine ⟨digit + passed, honest, forged, Nat.le_add_right digit passed, by omega, ?_, ?_, hmeet⟩
    · rw [chain_eq_walk (by omega) hsecret, walk_add, hhonest, ok_bind, Nat.zero_add, hbefore]
    · rw [chain_eq_walk (by omega) helement,
        show digit + passed - digit' = digit - digit' + passed by omega, walk_add, hmiddle, ok_bind,
        show digit' + (digit - digit') = digit by omega, hbefore']

/-- On some chain the second of two signatures has the smaller digit. Its element there leads to the
element of the first signature, or at or above the position of that one it meets the chain that
starts in the secret key. -/
def PrecedesOrMeets (s : OneTime) (position : TreePosition) (leaf : Nat)
    (secretKey signature : Bytes) (digits : List Nat) (signature' : Bytes) (digits' : List Nat) :
    Prop :=
  ∃ (i digit digit' : Nat) (secret element element' : Bytes),
    digits[i]? = some digit ∧ digits'[i]? = some digit' ∧ digit' < digit ∧
    (chunks s.params.n secretKey)[i]? = some secret ∧
    (chunks s.params.n signature)[i]? = some element ∧
    (chunks s.params.n signature')[i]? = some element' ∧
    (s.chain element' digit' (digit - digit') position leaf i = .ok element ∨
      ∃ step honest forged, digit ≤ step ∧ step < s.params.w - 1 ∧
        s.chain secret 0 step position leaf i = .ok honest ∧
        s.chain element' digit' (step - digit') position leaf i = .ok forged ∧
        s.MeetAt position leaf i step honest forged)

/-- The revealed elements from which a public key of known chain ends is recovered: each of them
leads to the end of its chain. -/
theorem walk_of_recover {signature block : Bytes} {ends : List Bytes} {digits : List Nat}
    (hends : ∀ last ∈ ends, last.length = s.digest.size)
    (hdigits : s.params.messageDigits block = .ok digits)
    (h : s.recover signature block position leaf = .ok ends.flatten) {i : Nat}
    (hi : i < digits.length) :
    ∃ element last, (chunks s.params.n signature)[i]? = some element ∧ ends[i]? = some last ∧
      element.length = s.digest.size ∧
      s.walk position leaf i digits[i] (s.params.w - 1 - digits[i]) element = .ok last := by
  rw [← value_recordRecover] at h
  obtain ⟨calls, hrun⟩ := Recorded.value_eq_ok_iff.1 h
  obtain ⟨digits', ends', hdigits', -, hkey, hends', hclimbs⟩ := exists_climbs hrun
  obtain rfl := Except.ok.inj (hdigits.symm.trans hdigits')
  obtain rfl : ends = ends' := by
    rw [← chunks_flatten s.digest.size_pos hends, hkey, chunks_flatten s.digest.size_pos hends']
  have hlength := hclimbs.length_digits
  have helement : i < (chunks s.params.n signature).length := by
    rw [hclimbs.length_elements]
    omega
  have hend : i < ends.length := by
    rw [hclimbs.length_ends]
    omega
  obtain ⟨-, hsize, walked, -, hwalk⟩ := hclimbs.walk i helement hi hend
  refine ⟨_, _, List.getElem?_eq_getElem helement, List.getElem?_eq_getElem hend, hsize, ?_⟩
  rw [← value_recordWalk value_recordNext]
  exact Recorded.value_eq_ok_iff.2 ⟨walked, hwalk⟩

/-- A signature of another block that leads to the public key of a leaf precedes the signature that
the leaf makes, or meets a chain of the leaf. -/
theorem forgery_precedes_or_meets (s : OneTime) (position : TreePosition) (leaf : Nat)
    {secretSeed block block' signature' : Bytes} (hsecret : secretSeed.length = s.digest.size)
    (hseed : s.publicSeed.length = s.digest.size) (hblock : block.length = s.digest.size)
    (hblock' : block'.length = s.digest.size) (hne : block ≠ block')
    (hforged : s.recover signature' block' position leaf =
      s.publicKey secretSeed position leaf) :
    ∃ secretKey signature digits digits',
      s.secretKey secretSeed position leaf = .ok secretKey ∧
      s.sign block secretSeed position leaf = .ok signature ∧
      s.params.messageDigits block = .ok digits ∧ s.params.messageDigits block' = .ok digits' ∧
      s.PrecedesOrMeets position leaf secretKey signature digits signature' digits' := by
  obtain ⟨elements, hsecretElements, hcount, helements⟩ :=
    exists_secretElements hsecret position leaf
  obtain ⟨digits, hdigits, hlength, hbound⟩ := s.params.exists_messageDigits hblock
  obtain ⟨digits', hdigits', hlength', -⟩ := s.params.exists_messageDigits hblock'
  have hsign := sign_eq_ok hseed helements hcount hsecretElements hdigits hlength hbound
  have hkey : s.secretKey secretSeed position leaf = .ok elements.flatten := by
    rw [secretKey, hsecretElements]
    rfl
  refine ⟨_, _, digits, digits', hkey, hsign, hdigits, hdigits', ?_⟩
  -- The checksum provides the chain, and recovering the public key the walk on it.
  obtain ⟨i, hi', hi, hlt⟩ := Params.exists_digit_lt
    (Params.checksumFits_ofDigest s.digest s.width) hne.symm hdigits' hdigits
  rw [publicKey_eq_ok hseed helements hcount hsecretElements] at hforged
  obtain ⟨element', last, helement', hlast, hsize, hwalk⟩ := walk_of_recover
    (fun last h => length_of_mem_elementsAt hseed helements h) hdigits' hforged hi'
  have hchain : i < elements.length := by omega
  have hend : last = s.elementAt position leaf i elements[i] (s.params.w - 1) := by
    have hchains : i < s.params.length := by omega
    simpa [ends, elementsAt, hchain, hchains] using hlast.symm
  rw [hend] at hwalk
  refine ⟨i, digits[i], digits'[i], elements[i], s.elementAt position leaf i elements[i] digits[i],
    element', List.getElem?_eq_getElem hi, List.getElem?_eq_getElem hi', hlt, ?_, ?_, helement', ?_⟩
  · rw [chunks_flatten (show 0 < s.params.n from s.digest.size_pos) helements,
      List.getElem?_eq_getElem hchain]
  · rw [chunks_flatten (show 0 < s.params.n from s.digest.size_pos)
      fun element h => length_of_mem_elementsAt hseed helements h]
    simp [elementsAt, hchain, hi]
  · exact chain_eq_or_meetAt hseed (helements _ (List.getElem_mem hchain)) hsize hlt
      (hbound _ (List.getElem_mem hi)) hwalk

/-- One-time signatures with a public seed of zero bytes. -/
def zeroSeeded : OneTime := ⟨.sha256, .sixteen, List.replicate 32 0⟩

/-- A leaf that signs two blocks forges itself: its signature of the block of ones precedes its
signature of the block of zeros, or meets a chain of the leaf. -/
theorem forgery_precedes_or_meets_secondBlock :
    List.replicate 32 (0 : UInt8) ≠ List.replicate 32 1 ∧
      ∃ signature',
        zeroSeeded.sign (List.replicate 32 1) (List.replicate 32 0) {} 0 = .ok signature' ∧
        zeroSeeded.recover signature' (List.replicate 32 1) {} 0 =
          zeroSeeded.publicKey (List.replicate 32 0) {} 0 ∧
        ∃ secretKey signature digits digits',
          zeroSeeded.secretKey (List.replicate 32 0) {} 0 = .ok secretKey ∧
          zeroSeeded.sign (List.replicate 32 0) (List.replicate 32 0) {} 0 = .ok signature ∧
          zeroSeeded.params.messageDigits (List.replicate 32 0) = .ok digits ∧
          zeroSeeded.params.messageDigits (List.replicate 32 1) = .ok digits' ∧
          zeroSeeded.PrecedesOrMeets {} 0 secretKey signature digits signature' digits' := by
  have hlength (byte : UInt8) :
      (List.replicate 32 byte).length = zeroSeeded.digest.size := List.length_replicate
  have hne : List.replicate 32 (0 : UInt8) ≠ List.replicate 32 1 := by decide
  obtain ⟨signature', hsign, hforged⟩ :=
    recover_sign (s := zeroSeeded) (hlength 0) (hlength 0) (hlength 1) {} 0
  exact ⟨hne, signature', hsign, hforged, forgery_precedes_or_meets zeroSeeded {} 0 (hlength 0)
    (hlength 0) (hlength 0) (hlength 1) hne hforged⟩

end MerkleSignature.Winternitz.OneTime
