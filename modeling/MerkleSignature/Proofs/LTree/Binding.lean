import MerkleSignature.Proofs.Bytes
import MerkleSignature.Proofs.Digest.Calls
import MerkleSignature.Proofs.LTree.Recorded

/-!
# L-trees bind public keys

Two L-trees at one place with the same root compress the same public key, or somewhere they join
different elements to the same parent. The argument goes through the rounds backwards: if the front
of the buffer is the same after a round, then so are all parents, and with them all elements before
the round, unless two joins collide. An element that moves up is compared directly.
-/

namespace MerkleSignature.LTree

section Places

variable {P : HashCall → Prop} {pair : Nat → Bytes → Bytes → Recorded HashCall Bytes}

theorem always_recordPairs (hpair : ∀ index left right, (pair index left right).Always P)
    (count index : Nat) (buffer : Array Bytes) :
    (recordPairs pair count index buffer).Always P := by
  induction count generalizing index buffer with
  | zero => exact Recorded.always_pure buffer
  | succ count ih => exact (hpair ..).bind fun parent => ih (index + 1) _

theorem always_recordCompress {join : RecordedJoin HashCall}
    (hjoin : ∀ height index left right, (join height index left right).Always P)
    (height length : Nat) (buffer : Array Bytes) :
    (recordCompress join height length buffer).Always P := by
  induction length using Nat.strongRecOn generalizing height buffer with
  | ind length ih =>
    rw [recordCompress]
    split
    · exact Recorded.always_pure buffer
    · have hround : (recordRound (join height) length buffer).Always P :=
        (always_recordPairs (hjoin height) ..).bind fun joined => Recorded.always_pure _
      exact hround.bind fun after => ih ((length + 1) / 2) (by omega) (height + 1) after

/-- An L-tree is joined in the L-tree of its leaf. -/
theorem always_recordRoot (d : Digest) (publicKey publicSeed : Bytes) (position : TreePosition)
    (leaf height : Nat) :
    (recordRoot d (d.recordLTreeJoin publicSeed position leaf) publicKey).Always
      fun call => call.place.OnBranch position leaf height := by
  rw [recordRoot]
  split
  · exact Recorded.always_lift _
  · have hjoin : ∀ level index left right,
        (d.recordLTreeJoin publicSeed position leaf level index left right).Always
          fun call => call.place.OnBranch position leaf height :=
      fun level index left right => Digest.always_recordHash fun _ => ⟨rfl, rfl⟩
    exact (always_recordCompress hjoin ..).bind fun buffer => Recorded.always_pure _

end Places

section Pairs

/-- An element is found where it was written. -/
theorem getD_setIfInBounds_self {buffer : Array Bytes} {i : Nat} (hi : i < buffer.size)
    (element : Bytes) : (buffer.setIfInBounds i element).getD i [] = element := by
  rw [Array.getD_eq_getD_getElem?, Array.getElem?_setIfInBounds_self_of_lt hi, Option.getD_some]

/-- Elsewhere a buffer stays as it was. -/
theorem getD_setIfInBounds_ne {buffer : Array Bytes} {i j : Nat} (h : i ≠ j) (element : Bytes) :
    (buffer.setIfInBounds i element).getD j [] = buffer.getD j [] := by
  rw [Array.getD_eq_getD_getElem?, Array.getD_eq_getD_getElem?, Array.getElem?_setIfInBounds_ne h]

variable {pair : Nat → Bytes → Bytes → Recorded HashCall Bytes} {count index : Nat}
  {buffer after : Array Bytes} {calls : List HashCall}

/-- Joining pairs keeps the size of the buffer. -/
theorem size_of_recordPairs
    (h : (recordPairs pair count index buffer).run = .ok (after, calls)) :
    after.size = buffer.size := by
  induction count generalizing index buffer calls with
  | zero =>
    obtain ⟨rfl, -⟩ := Recorded.run_pure_eq_ok_iff.1 h
    rfl
  | succ count ih =>
    obtain ⟨parent, _, _, -, hrest, -⟩ := Recorded.run_bind_eq_ok_iff.1 h
    rw [ih hrest, Array.size_setIfInBounds]

/-- Joining pairs only writes their parents. -/
theorem getD_of_recordPairs
    (h : (recordPairs pair count index buffer).run = .ok (after, calls)) {j : Nat}
    (hj : j < index ∨ index + count ≤ j) : after.getD j [] = buffer.getD j [] := by
  induction count generalizing index buffer calls with
  | zero =>
    obtain ⟨rfl, -⟩ := Recorded.run_pure_eq_ok_iff.1 h
    rfl
  | succ count ih =>
    obtain ⟨parent, _, _, -, hrest, -⟩ := Recorded.run_bind_eq_ok_iff.1 h
    rw [ih hrest (by omega), getD_setIfInBounds_ne (by omega)]

variable {d : Digest} {buffer' after' : Array Bytes} {calls' : List HashCall}

/-- Pairs with the same parents are the same pairs, or their joins collide. -/
theorem pairs_eq_or_collision
    (hpair : PairBinding d pair)
    (hsize : 2 * (index + count) ≤ buffer.size) (hsize' : 2 * (index + count) ≤ buffer'.size)
    (h : (recordPairs pair count index buffer).run = .ok (after, calls))
    (h' : (recordPairs pair count index buffer').run = .ok (after', calls'))
    (hafter : ∀ j, index ≤ j → j < index + count → after.getD j [] = after'.getD j []) :
    (∀ j, 2 * index ≤ j → j < 2 * (index + count) → buffer.getD j [] = buffer'.getD j []) ∨
      Collision d calls calls' := by
  induction count generalizing index buffer buffer' calls calls' with
  | zero => exact .inl fun j hj hlt => by omega
  | succ count ih =>
    obtain ⟨parent, _, _, hjoin, hrest, rfl⟩ := Recorded.run_bind_eq_ok_iff.1 h
    obtain ⟨parent', _, _, hjoin', hrest', rfl⟩ := Recorded.run_bind_eq_ok_iff.1 h'
    have hwritten : after.getD index [] = parent := by
      rw [getD_of_recordPairs hrest (.inl (Nat.lt_succ_self index)),
        getD_setIfInBounds_self (by omega)]
    have hwritten' : after'.getD index [] = parent' := by
      rw [getD_of_recordPairs hrest' (.inl (Nat.lt_succ_self index)),
        getD_setIfInBounds_self (by omega)]
    obtain rfl : parent = parent' := by
      rw [← hwritten, ← hwritten', hafter index (Nat.le_refl _) (by omega)]
    rcases hpair hjoin hjoin' with hsame | hcollision
    · obtain ⟨hleft, hright⟩ := Prod.mk.inj hsame
      rcases ih (by rw [Array.size_setIfInBounds]; omega) (by rw [Array.size_setIfInBounds]; omega)
        hrest hrest' (fun j hj hlt => hafter j (by omega) (by omega)) with hsame | hcollision
      · refine .inl fun j hj hlt => ?_
        rcases Nat.lt_or_ge j (2 * index + 2) with hfirst | hlater
        · obtain rfl | rfl : j = 2 * index ∨ j = 2 * index + 1 := by omega
          · exact hleft
          · exact hright
        · have hkept := hsame j (by omega) (by omega)
          rwa [getD_setIfInBounds_ne (by omega), getD_setIfInBounds_ne (by omega)] at hkept
      · exact .inr hcollision.append_right
    · exact .inr hcollision.append_left

end Pairs

section Rounds

variable {d : Digest} {buffer buffer' after after' : Array Bytes} {calls calls' : List HashCall}
  {length : Nat}

/-- After a round the parents of the pairs stand at the front, and behind them the element that was
left over. -/
theorem exists_recordPairs_of_recordRound {pair : Nat → Bytes → Bytes → Recorded HashCall Bytes}
    (hlength : 1 < length) (hsize : length ≤ buffer.size)
    (h : (recordRound pair length buffer).run = .ok (after, calls)) :
    ∃ joined, (recordPairs pair (length / 2) 0 buffer).run = .ok (joined, calls) ∧
      after.size = buffer.size ∧ (∀ j, j < length / 2 → after.getD j [] = joined.getD j []) ∧
      (length % 2 = 1 → after.getD (length / 2) [] = buffer.getD (length - 1) []) := by
  obtain ⟨joined, hjoined, rfl⟩ := Recorded.run_bind_pure_eq_ok_iff.1 h
  have hkept := size_of_recordPairs hjoined
  refine ⟨joined, hjoined, ?_, fun j hj => ?_, fun hodd => ?_⟩
  · split
    · rw [Array.size_setIfInBounds, hkept]
    · exact hkept
  · split
    · exact getD_setIfInBounds_ne (by omega) _
    · rfl
  · rw [if_pos hodd, getD_setIfInBounds_self (by omega), getD_of_recordPairs hjoined (by omega)]

/-- A round that leaves the same elements found the same elements, or two of its joins collide. -/
theorem round_eq_or_collision {pair : Nat → Bytes → Bytes → Recorded HashCall Bytes}
    (hpair : PairBinding d pair) (hlength : 1 < length) (hsize : length ≤ buffer.size)
    (hsize' : length ≤ buffer'.size)
    (h : (recordRound pair length buffer).run = .ok (after, calls))
    (h' : (recordRound pair length buffer').run = .ok (after', calls'))
    (hafter : ∀ j, j < (length + 1) / 2 → after.getD j [] = after'.getD j []) :
    (∀ j, j < length → buffer.getD j [] = buffer'.getD j []) ∨ Collision d calls calls' := by
  obtain ⟨joined, hjoined, -, hparents, hlast⟩ := exists_recordPairs_of_recordRound hlength hsize h
  obtain ⟨joined', hjoined', -, hparents', hlast'⟩ :=
    exists_recordPairs_of_recordRound hlength hsize' h'
  have hsame : ∀ j, 0 ≤ j → j < 0 + length / 2 → joined.getD j [] = joined'.getD j [] := by
    intro j _ hj
    rw [← hparents j (by omega), ← hparents' j (by omega), hafter j (by omega)]
  refine (pairs_eq_or_collision hpair (show 2 * (0 + length / 2) ≤ buffer.size by omega)
    (show 2 * (0 + length / 2) ≤ buffer'.size by omega) hjoined hjoined' hsame).imp_left
      fun hpairs j hj => ?_
  rcases Nat.lt_or_ge j (2 * (length / 2)) with hpaired | hover
  · exact hpairs j (by omega) (by omega)
  · have hodd : length % 2 = 1 := by omega
    rw [show j = length - 1 by omega, ← hlast hodd, ← hlast' hodd, hafter _ (by omega)]

/-- Rounds that leave the same element found the same elements, or two of their joins collide. -/
theorem compress_eq_or_collision {join : RecordedJoin HashCall}
    (hjoin : RecordedJoin.Binding d join) {height : Nat} (hsize : length ≤ buffer.size)
    (hsize' : length ≤ buffer'.size)
    (h : (recordCompress join height length buffer).run = .ok (after, calls))
    (h' : (recordCompress join height length buffer').run = .ok (after', calls'))
    (hafter : after.getD 0 [] = after'.getD 0 []) :
    (∀ j, j < length → buffer.getD j [] = buffer'.getD j []) ∨ Collision d calls calls' := by
  induction length using Nat.strongRecOn generalizing height buffer buffer' calls calls' with
  | ind length ih =>
    rw [recordCompress] at h h'
    split at h
    · rename_i hone
      rw [if_pos hone] at h'
      obtain ⟨rfl, -⟩ := Recorded.run_pure_eq_ok_iff.1 h
      obtain ⟨rfl, -⟩ := Recorded.run_pure_eq_ok_iff.1 h'
      refine .inl fun j hj => ?_
      rwa [show j = 0 by omega]
    · rename_i hmore
      rw [if_neg hmore] at h'
      obtain ⟨front, _, _, hround, hrest, rfl⟩ := Recorded.run_bind_eq_ok_iff.1 h
      obtain ⟨front', _, _, hround', hrest', rfl⟩ := Recorded.run_bind_eq_ok_iff.1 h'
      have hone : 1 < length := by omega
      obtain ⟨-, -, hkept, -⟩ := exists_recordPairs_of_recordRound hone hsize hround
      obtain ⟨-, -, hkept', -⟩ := exists_recordPairs_of_recordRound hone hsize' hround'
      rcases ih ((length + 1) / 2) (by omega) (by omega) (by omega) hrest hrest' with
        hsame | hcollision
      · exact (round_eq_or_collision (hjoin height) hone hsize hsize' hround hround'
          hsame).imp_right Collision.append_left
      · exact .inr hcollision.append_right

end Rounds

/-- Lists of one length that fill buffers alike are the same. -/
theorem eq_of_getD_toArray {a b : List Bytes} (hlength : a.length = b.length)
    (h : ∀ j, j < a.length → a.toArray.getD j [] = b.toArray.getD j []) : a = b := by
  refine List.ext_getElem hlength fun j hj hj' => ?_
  have hentry := h j hj
  rwa [Array.getD_eq_getD_getElem?, Array.getD_eq_getD_getElem?, List.getElem?_toArray,
    List.getElem?_toArray, List.getElem?_eq_getElem hj, List.getElem?_eq_getElem hj',
    Option.getD_some, Option.getD_some] at hentry

/-- Public keys of one length with the same root are the same, or two joins of their L-trees
collide. -/
theorem publicKey_eq_or_collision {d : Digest} {publicKey publicKey' publicSeed value : Bytes}
    {position : TreePosition} {leaf : Nat} {calls calls' : List HashCall}
    (hlength : publicKey.length = publicKey'.length)
    (h : (recordRoot d (d.recordLTreeJoin publicSeed position leaf) publicKey).run =
      .ok (value, calls))
    (h' : (recordRoot d (d.recordLTreeJoin publicSeed position leaf) publicKey').run =
      .ok (value, calls')) :
    publicKey = publicKey' ∨ Collision d calls calls' := by
  rw [recordRoot] at h h'
  split at h
  · exact absurd h Recorded.run_error_ne_ok
  rename_i hfit
  have hfit' : ¬ (publicKey' = [] ∨ publicKey'.length % d.size ≠ 0) := by
    rwa [← List.length_eq_zero_iff, ← hlength, List.length_eq_zero_iff]
  rw [if_neg hfit'] at h'
  obtain ⟨buffer, hcompress, hvalue⟩ := Recorded.run_bind_pure_eq_ok_iff.1 h
  obtain ⟨buffer', hcompress', hvalue'⟩ := Recorded.run_bind_pure_eq_ok_iff.1 h'
  have hcount : (chunks d.size publicKey).length = (chunks d.size publicKey').length := by
    rw [chunks, chunks, length_pieces, length_pieces, hlength]
  rw [← hcount] at hcompress'
  rcases compress_eq_or_collision (d.binding_recordLTreeJoin leaf) (Nat.le_refl _)
    (Nat.le_of_eq hcount) hcompress hcompress' (hvalue.symm.trans hvalue') with hsame | hcollision
  · have hflatten : ∀ key : Bytes, ¬ (key = [] ∨ key.length % d.size ≠ 0) →
        (chunks d.size key).flatten = key := by
      intro key hkey
      have hdvd : d.size ∣ key.length :=
        Nat.dvd_of_mod_eq_zero (by_contra fun hrest => hkey (.inr hrest))
      rw [chunks, flatten_pieces, Nat.mul_div_cancel' hdvd, List.take_length]
    rw [← hflatten publicKey hfit, eq_of_getD_toArray hcount hsame, hflatten publicKey' hfit']
    exact .inl rfl
  · exact .inr hcollision

end MerkleSignature.LTree
