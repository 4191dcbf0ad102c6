import MerkleSignature.Proofs.Derivations
import MerkleSignature.Proofs.KeyTree
import MerkleSignature.Proofs.Recorded.Once

/-!
# No address is used twice for a leaf

A leaf of a tree is computed by walking the chains of a one-time key and by compressing their ends
in an L-tree. The addresses of chains and of L-trees have different kinds. Their three words count
the leaves, the chains and the steps, or the leaves, the rounds and the pairs, and each loop runs
through its counter once. All counters fit their words.
-/

namespace MerkleSignature

open Recorded

namespace Address

/-- The number that tells the kind of the target: 0 for a chain, 1 for an L-tree, 2 for a hash
tree. -/
def kind (a : Address) : Nat := a.target.typeWord.toNat

/-- The first word of the target. -/
def first (a : Address) : Nat := a.target.words.1.toNat

/-- The second word of the target. -/
def second (a : Address) : Nat := a.target.words.2.1.toNat

/-- The third word of the target. -/
def third (a : Address) : Nat := a.target.words.2.2.toNat

/-- Two addresses belong to the same call: at most their key-and-mask words differ. -/
def SameCall (a b : Address) : Prop := b.position = a.position ∧ b.target = a.target

/-- Addresses with different key-and-mask words are different. -/
theorem withKeyAndMask_ne (a : Address) {i j : UInt32} (h : i ≠ j) :
    a.withKeyAndMask i ≠ a.withKeyAndMask j :=
  fun hsame => h (congrArg keyAndMask hsame)

variable {position : TreePosition} {leaf chain step height index : Nat} {a : Address}

/-- The words of the address of a chain step. -/
theorem words_of_oneTime (hleaf : leaf < wordRange) (hchain : chain < wordRange)
    (hstep : step < wordRange) (h : SameCall (position.oneTimeAddress leaf chain step) a) :
    a.position = position ∧ a.kind = 0 ∧ a.first = leaf ∧ a.second = chain ∧ a.third = step := by
  obtain ⟨hposition, htarget⟩ := h
  unfold kind first second third
  rw [htarget]
  exact ⟨hposition, rfl, Nat.mod_eq_of_lt hleaf, Nat.mod_eq_of_lt hchain, Nat.mod_eq_of_lt hstep⟩

/-- The words of the address of an L-tree node. -/
theorem words_of_lTree (hleaf : leaf < wordRange) (hheight : height < wordRange)
    (hindex : index < wordRange) (h : SameCall (position.lTreeAddress leaf height index) a) :
    a.position = position ∧ a.kind = 1 ∧ a.first = leaf ∧ a.second = height ∧ a.third = index := by
  obtain ⟨hposition, htarget⟩ := h
  unfold kind first second third
  rw [htarget]
  exact ⟨hposition, rfl, Nat.mod_eq_of_lt hleaf, Nat.mod_eq_of_lt hheight, Nat.mod_eq_of_lt hindex⟩

/-- The words of the address of a hash-tree node. -/
theorem words_of_hashTree (hheight : height < wordRange) (hindex : index < wordRange)
    (h : SameCall (position.hashTreeAddress height index) a) :
    a.position = position ∧ a.kind = 2 ∧ a.second = height ∧ a.third = index := by
  obtain ⟨hposition, htarget⟩ := h
  unfold kind second third
  rw [htarget]
  exact ⟨hposition, rfl, Nat.mod_eq_of_lt hheight, Nat.mod_eq_of_lt hindex⟩

end Address

namespace Recorded

variable {α β : Type} {position : TreePosition} {P Q R : Address → Prop} {n m count : Nat}
  {x : Recorded Address α}

/-- A computation notes so many addresses, no address twice, and only addresses of the tree at a
position that have a property. -/
def OnceAt (position : TreePosition) (P : Address → Prop) (count : Nat)
    (x : Recorded Address α) : Prop :=
  Once (fun a => a.position = position ∧ P a) count x

/-- The property of the addresses can be weakened. -/
theorem OnceAt.mono (h : OnceAt position P count x) (hPQ : ∀ a, P a → Q a) :
    OnceAt position Q count x := by
  apply Once.mono h
  intro a ha
  exact ⟨ha.1, hPQ a ha.2⟩

/-- Within a tree two steps are kept apart by the properties of their addresses. -/
theorem OnceAt.bind {f : α → Recorded Address β} (hx : OnceAt position P n x)
    (hf : ∀ value, x.value = .ok value → OnceAt position Q m (f value))
    (hfirst : ∀ a, P a → R a ∧ ¬ Q a) (hsecond : ∀ a, Q a → R a) (hcount : count = n + m) :
    OnceAt position R count (x >>= f) := by
  apply Once.bind hx hf
  · intro a ha
    exact ⟨⟨ha.1, (hfirst a ha.2).1⟩, fun hQ => (hfirst a ha.2).2 hQ.2⟩
  · intro a ha
    exact ⟨ha.1, hsecond a ha.2⟩
  · exact hcount

/-- A step that notes nothing adds nothing to the notes before it. -/
theorem OnceAt.bind_silent {f : α → Recorded Address β} (hx : OnceAt position P count x)
    (hf : ∀ value, Once (fun _ => False) 0 (f value)) : OnceAt position P count (x >>= f) :=
  Once.bind_silent hx hf

end Recorded

namespace Digest

variable {d : Digest} {publicSeed : Bytes}

/-- A derivation notes its address. -/
theorem once_noteDerivation (address : Address) :
    Once (· = address) 1 (d.noteDerivation publicSeed address) := by
  have htell : Once (· = address) 1 (tell [address] : Recorded Address PUnit) := once_tell rfl
  exact htell.bind_silent fun _ => once_lift _

/-- A join derives its key and its two masks under different addresses. -/
theorem once_noteJoin (left right : Bytes) (address : Address) :
    Once address.SameCall 3 (d.noteJoin left right publicSeed address) := by
  have hmasks : ∀ key, Once
      (fun a => a = address.withKeyAndMask 1 ∨ a = address.withKeyAndMask 2) 2 (do
        let leftMask ← d.noteDerivation publicSeed (address.withKeyAndMask 1)
        let rightMask ← d.noteDerivation publicSeed (address.withKeyAndMask 2)
        d.nodeHash key (Bytes.xor left leftMask ++ Bytes.xor right rightMask)) := by
    intro key
    apply (once_noteDerivation _).bind
    · intro leftMask _
      exact (once_noteDerivation _).bind_silent fun rightMask => once_lift _
    · rintro a rfl
      exact ⟨.inl rfl, address.withKeyAndMask_ne (by decide)⟩
    · intro a
      exact Or.inr
    · rfl
  apply once_lift_bind
  intro _ _
  apply once_lift_bind
  intro _ _
  apply (once_noteDerivation _).bind
  · intro key _
    exact hmasks key
  · rintro a rfl
    refine ⟨⟨rfl, rfl⟩, not_or.2 ⟨?_, ?_⟩⟩
    · exact address.withKeyAndMask_ne (by decide)
    · exact address.withKeyAndMask_ne (by decide)
  · rintro a (rfl | rfl)
    · exact ⟨rfl, rfl⟩
    · exact ⟨rfl, rfl⟩
  · rfl

end Digest

namespace Winternitz.OneTime

variable {s : OneTime} {position : TreePosition} {leaf : Nat}

/-- A step derives its key and its mask under different addresses. -/
theorem once_noteNext (hleaf : leaf < wordRange) {i step : Nat} (hi : i < wordRange)
    (hstep : step < wordRange) (element : Bytes) :
    OnceAt position (fun a => a.kind = 0 ∧ a.first = leaf ∧ a.second = i ∧ a.third = step) 2
      (s.noteNext position leaf i step element) := by
  have hcall : Once (position.oneTimeAddress leaf i step).SameCall 2
      (s.noteNext position leaf i step element) := by
    apply (Digest.once_noteDerivation _).bind
    · intro key _
      exact (Digest.once_noteDerivation _).bind_silent fun mask => once_lift _
    · rintro a rfl
      have hwords : (0 : UInt32) ≠ 1 := by decide
      exact ⟨⟨rfl, rfl⟩, (position.oneTimeAddress leaf i step).withKeyAndMask_ne hwords⟩
    · rintro a rfl
      exact ⟨rfl, rfl⟩
    · rfl
  apply hcall.mono
  intro a ha
  exact Address.words_of_oneTime hleaf hi hstep ha

/-- The steps of a walk count up from its start. -/
theorem once_recordWalk (hleaf : leaf < wordRange) {i : Nat} (hi : i < wordRange)
    {start steps : Nat} (hsteps : start + steps ≤ wordRange) (element : Bytes) :
    OnceAt position (fun a => a.kind = 0 ∧ a.first = leaf ∧ a.second = i ∧ start ≤ a.third)
      (2 * steps) (recordWalk (s.noteNext position leaf i) start steps element) := by
  induction steps generalizing start element with
  | zero => exact once_pure element
  | succ steps ih =>
    have hstep : start < wordRange := by omega
    apply (once_noteNext hleaf hi hstep element).bind
    · intro following _
      exact ih (by omega) following
    · intro a ha
      omega
    · intro a ha
      omega
    · omega

/-- A walk within a chain stays on the chain. -/
theorem once_recordChain (hleaf : leaf < wordRange) {i : Nat} (hi : i < wordRange)
    (start steps : Nat) (element : Bytes) :
    OnceAt position (fun a => a.kind = 0 ∧ a.first = leaf ∧ a.second = i) (2 * steps)
      (s.recordChain (s.noteNext position leaf i) element start steps) := by
  have hw : s.params.w ≤ wordRange := by
    change s.width.base ≤ wordRange
    cases s.width <;> decide
  rw [recordChain]
  split
  · exact once_error _
  · apply once_lift_bind
    intro _ _
    apply (once_recordWalk hleaf hi (by omega) element).mono
    intro a ha
    omega

/-- A one-time key has no more chains than a word can count. -/
theorem length_params_le (s : OneTime) : s.params.length ≤ wordRange := by
  change (Params.ofDigest s.digest s.width).length ≤ wordRange
  cases s.digest <;> cases s.width <;> decide

/-- The chains of a one-time key are numbered. -/
theorem once_notePublicKey (hleaf : leaf < wordRange) {secretSeed : Bytes}
    (hsecret : secretSeed.length = s.digest.size) :
    OnceAt position (fun a => a.kind = 0 ∧ a.first = leaf)
      (s.params.length * (2 * (s.params.w - 1))) (s.notePublicKey position leaf secretSeed) := by
  obtain ⟨elements, helements, hlength, -⟩ := exists_secretElements hsecret position leaf
  refine once_lift_bind fun elements' helements' => ?_
  obtain rfl : elements = elements' := Except.ok.inj (helements.symm.trans helements')
  have hchains : ∀ entry ∈ elements.zipIdx, OnceAt position
      (fun a => a.kind = 0 ∧ a.first = leaf ∧ a.second = entry.2) (2 * (s.params.w - 1))
      (s.recordChain (s.noteNext position leaf entry.2) entry.1 0 (s.params.w - 1)) := by
    intro entry hentry
    have hindex := List.snd_lt_of_mem_zipIdx hentry
    have hcount := length_params_le s
    exact once_recordChain hleaf (by omega) _ _ _
  have hnumbers : elements.zipIdx.Pairwise fun entry entry' => entry.2 ≠ entry'.2 := by
    rw [← List.pairwise_map (f := Prod.snd), List.zipIdx_map_snd]
    exact List.nodup_range'
  rw [← hlength, ← List.length_zipIdx (i := 0)]
  refine ((once_forEach hchains ?_).mono ?_).bind_silent fun _ => once_pure _
  · refine hnumbers.imp fun hne a ha ha' => ?_
    omega
  · rintro a ⟨entry, -, hposition, hwords⟩
    exact ⟨hposition, by omega⟩

end Winternitz.OneTime

namespace LTree

variable {d : Digest} {publicSeed : Bytes} {position : TreePosition} {leaf : Nat}

/-- The joins of a round count up from its first pair. -/
theorem once_recordPairs (hleaf : leaf < wordRange) {height : Nat} (hheight : height < wordRange)
    {count index : Nat} (hcount : index + count ≤ wordRange) (buffer : Array Bytes) :
    OnceAt position
      (fun a => a.kind = 1 ∧ a.first = leaf ∧ a.second = height ∧ index ≤ a.third) (3 * count)
      (recordPairs (d.noteLTreeJoin publicSeed position leaf height) count index buffer) := by
  induction count generalizing index buffer with
  | zero => exact once_pure buffer
  | succ count ih =>
    have hindex : index < wordRange := by omega
    have hjoin : OnceAt position
        (fun a => a.kind = 1 ∧ a.first = leaf ∧ a.second = height ∧ a.third = index) 3
        (d.noteLTreeJoin publicSeed position leaf height index (buffer.getD (2 * index) [])
          (buffer.getD (2 * index + 1) [])) :=
      (Digest.once_noteJoin _ _ _).mono fun a ha => Address.words_of_lTree hleaf hheight hindex ha
    apply hjoin.bind
    · intro parent _
      exact ih (by omega) _
    · intro a ha
      omega
    · intro a ha
      omega
    · omega

/-- The rounds of an L-tree count up from the first one. All joins together leave one of the
elements over. -/
theorem once_recordCompress (hleaf : leaf < wordRange) {height length : Nat}
    (hlength : height + length ≤ wordRange) (buffer : Array Bytes) :
    OnceAt position (fun a => a.kind = 1 ∧ a.first = leaf ∧ height ≤ a.second) (3 * (length - 1))
      (recordCompress (d.noteLTreeJoin publicSeed position leaf) height length buffer) := by
  induction length using Nat.strongRecOn generalizing height buffer with
  | ind length ih =>
    rw [recordCompress]
    split
    · rw [show 3 * (length - 1) = 0 by omega]
      exact once_pure buffer
    · have hround : OnceAt position
          (fun a => a.kind = 1 ∧ a.first = leaf ∧ a.second = height ∧ 0 ≤ a.third)
          (3 * (length / 2))
          (recordRound (d.noteLTreeJoin publicSeed position leaf height) length buffer) :=
        (once_recordPairs hleaf (by omega) (by omega) buffer).bind_silent fun joined => once_pure _
      apply hround.bind
      · intro after _
        exact ih ((length + 1) / 2) (by omega) (by omega) after
      · intro a ha
        omega
      · intro a ha
        omega
      · omega

/-- The joins of an L-tree are those of its leaf. -/
theorem once_recordRoot (hleaf : leaf < wordRange) {publicKey : Bytes}
    (hlength : publicKey.length / d.size ≤ wordRange) :
    OnceAt position (fun a => a.kind = 1 ∧ a.first = leaf)
      (3 * (publicKey.length / d.size - 1))
      (recordRoot d (d.noteLTreeJoin publicSeed position leaf) publicKey) := by
  rw [recordRoot]
  split
  · exact once_error _
  · have hcount : (chunks d.size publicKey).length = publicKey.length / d.size := by
      rw [chunks, length_pieces]
    rw [← hcount] at hlength ⊢
    refine ((once_recordCompress hleaf (by omega) _).mono ?_).bind_silent fun buffer => once_pure _
    intro a ha
    omega

end LTree

namespace KeyTree

variable {k : KeyTree}

/-- The number of keys and masks that are derived for a leaf: two for each step to the end of each
chain, and three for each join in an L-tree over the chains. -/
def leafDerivations (k : KeyTree) : Nat :=
  k.oneTime.params.length * (2 * (k.oneTime.params.w - 1)) + 3 * (k.oneTime.params.length - 1)

/-- The chains and the L-tree of a leaf are kept apart by their kinds. -/
theorem once_noteLeaf (hseeds : k.WellSeeded) {index : Nat} (hindex : index < wordRange) :
    OnceAt k.position (fun a => a.kind < 2 ∧ a.first = index) k.leafDerivations
      (k.noteLeaf index) := by
  have hchains := Winternitz.OneTime.length_params_le k.oneTime
  have hcompress : ∀ publicKey,
      (k.oneTime.notePublicKey k.position index k.secretSeed).value = .ok publicKey →
      OnceAt k.position (fun a => a.kind = 1 ∧ a.first = index)
        (3 * (k.oneTime.params.length - 1))
        (LTree.recordRoot k.digest (k.digest.noteLTreeJoin k.publicSeed k.position index)
          publicKey) := by
    intro publicKey hpublicKey
    -- A public key has one element per chain.
    obtain ⟨publicKey', hpublicKey', hlength⟩ := Winternitz.OneTime.publicKey_yields
      (show k.oneTime.publicSeed.length = k.oneTime.digest.size from hseeds.length_publicSeed)
      hseeds.length_secretSeed k.position index
    rw [Winternitz.OneTime.value_notePublicKey, hpublicKey'] at hpublicKey
    obtain rfl := Except.ok.inj hpublicKey
    have hcount : publicKey'.length / k.digest.size = k.oneTime.params.length := by
      rw [hlength]
      exact Nat.mul_div_cancel _ k.digest.size_pos
    rw [← hcount] at hchains ⊢
    exact LTree.once_recordRoot hindex hchains
  apply (Winternitz.OneTime.once_notePublicKey hindex hseeds.length_secretSeed).bind hcompress
  · intro a ha
    omega
  · intro a ha
    omega
  · rfl

end KeyTree

end MerkleSignature
