import MerkleSignature.Proofs.Recorded

/-!
# Calls of the hash

Every hash of a message, step on a chain and join of two nodes is one call of the digest on one
byte string, whose keys and masks depend on the place of the call alone. At one place, different
operands are therefore hashed as different byte strings, and equal outputs of different operands are
a collision of the digest that is explicitly given.

The calls are recorded by what is hashed at which place, so that two computations can be compared
place by place.
-/

namespace MerkleSignature

/-- Where a call of the hash stands. -/
inductive HashPlace where
  /-- The hash of a message. -/
  | message
  /-- A step on a chain of the one-time key of a leaf. -/
  | chain (position : TreePosition) (leaf chain step : Nat)
  /-- A join in the L-tree of a leaf: the height of the children and the index of the parent. -/
  | lTree (position : TreePosition) (leaf height index : Nat)
  /-- A join in a hash tree: the height of the children and the index of the parent. -/
  | hashTree (position : TreePosition) (height index : Nat)
  deriving DecidableEq

/-- What is hashed at a place: the randomness and the message, a chain element, or two nodes. -/
abbrev HashPlace.Operands : HashPlace → Type
  | message => Bytes × Bytes
  | chain .. => Bytes
  | lTree .. | hashTree .. => Bytes × Bytes

/-- The place of a join on the way from a leaf to the root of a tree: one in the L-tree of the leaf,
or one that computes an ancestor of the leaf. -/
def HashPlace.OnBranch (position : TreePosition) (leaf height : Nat) : HashPlace → Prop
  | lTree there leaf' _ _ => there = position ∧ leaf' = leaf
  | hashTree there level index => there = position ∧ level < height ∧ index = leaf >>> (level + 1)
  | message | chain .. => False

/-- A call of the hash. -/
structure HashCall where
  place : HashPlace
  operands : place.Operands
  /-- The byte string that the digest is given. -/
  input : Bytes

/-- At a place, two records have calls that hash different operands, as different byte strings, to
the same output. -/
def CollideAt (d : Digest) (place : HashPlace) (calls calls' : List HashCall) : Prop :=
  ∃ (operands operands' : place.Operands) (input input' : Bytes),
    ⟨place, operands, input⟩ ∈ calls ∧ ⟨place, operands', input'⟩ ∈ calls' ∧
    operands ≠ operands' ∧ input ≠ input' ∧ d.hash input = d.hash input'

/-- Two records collide at some place. -/
def Collision (d : Digest) (calls calls' : List HashCall) : Prop :=
  ∃ place, CollideAt d place calls calls'

section Collisions

variable {d : Digest} {calls calls' more more' : List HashCall}

/-- Records that collide at a place do so in all larger records. -/
theorem CollideAt.mono {place : HashPlace} (h : CollideAt d place calls calls')
    (hcalls : calls ⊆ more) (hcalls' : calls' ⊆ more') : CollideAt d place more more' := by
  obtain ⟨operands, operands', input, input', hmem, hmem', hfound⟩ := h
  exact ⟨operands, operands', input, input', hcalls hmem, hcalls' hmem', hfound⟩

namespace Collision

/-- A collision is one of all larger records. -/
theorem mono (h : Collision d calls calls') (hcalls : calls ⊆ more) (hcalls' : calls' ⊆ more') :
    Collision d more more' :=
  h.imp fun _ hcollide => hcollide.mono hcalls hcalls'

theorem append_left (h : Collision d calls calls') :
    Collision d (calls ++ more) (calls' ++ more') :=
  h.mono (List.subset_append_left ..) (List.subset_append_left ..)

theorem append_right (h : Collision d calls calls') :
    Collision d (more ++ calls) (more' ++ calls') :=
  h.mono (List.subset_append_right ..) (List.subset_append_right ..)

/-- Records collide at a place of the second one. -/
theorem exists_place (h : Collision d calls calls') {P : HashPlace → Prop}
    (hplaces : ∀ call ∈ calls', P call.place) :
    ∃ place, P place ∧ CollideAt d place calls calls' := by
  obtain ⟨place, operands, operands', input, input', hmem, hmem', hfound⟩ := h
  exact ⟨place, hplaces _ hmem', operands, operands', input, input', hmem, hmem', hfound⟩

end Collision

end Collisions

namespace Bytes

/-- Masked byte strings that are the same were the same before. -/
theorem xor_right_inj {a b mask : Bytes} (hlength : a.length = b.length)
    (hmask : a.length ≤ mask.length) (h : xor a mask = xor b mask) : a = b := by
  induction a generalizing b mask with
  | nil => exact (List.eq_nil_of_length_eq_zero hlength.symm).symm
  | cons x a ih =>
    obtain ⟨y, b, rfl⟩ := List.exists_cons_of_length_eq_add_one hlength.symm
    cases mask with
    | nil => simp at hmask
    | cons m mask =>
      obtain ⟨hhead, htail⟩ := List.cons.inj h
      rw [(UInt8.xor_left_inj m).1 hhead,
        ih (Nat.succ.inj hlength) (Nat.le_of_succ_le_succ hmask) htail]

end Bytes

namespace Digest

variable {d : Digest}

/-- Keys of one length and inputs that are hashed as the same byte string are the same. -/
theorem framed_inj {purpose : Purpose} {key key' input input' : Bytes}
    (hlength : key.length = key'.length)
    (h : d.framed purpose key input = d.framed purpose key' input') :
    key = key' ∧ input = input' := by
  rw [framed, framed, Bytes.prependBigEndian_eq_append, Bytes.prependBigEndian_eq_append] at h
  exact List.append_inj (List.append_cancel_left h) hlength

/-- Hash the byte string that is computed for some operands, and note the call. -/
def recordHash (d : Digest) (place : HashPlace) (operands : place.Operands)
    (input : Except Error Bytes) : Recorded HashCall Bytes := do
  let bytes ← input
  tell [⟨place, operands, bytes⟩]
  return d.hash bytes

@[simp] theorem value_recordHash (place : HashPlace) (operands : place.Operands)
    (input : Except Error Bytes) :
    (d.recordHash place operands input).value = input >>= fun bytes => .ok (d.hash bytes) := by
  simp [recordHash]

theorem run_recordHash_eq_ok_iff {place : HashPlace} {operands : place.Operands}
    {input : Except Error Bytes} {output : Bytes} {calls : List HashCall} :
    (d.recordHash place operands input).run = .ok (output, calls) ↔
      ∃ bytes, input = .ok bytes ∧ output = d.hash bytes ∧ calls = [⟨place, operands, bytes⟩] := by
  cases input with
  | error e => exact ⟨fun h => (nomatch h), fun ⟨_, h, _⟩ => (nomatch h)⟩
  | ok bytes =>
    constructor
    · intro h
      obtain ⟨rfl, rfl⟩ := Prod.mk.inj (Except.ok.inj h)
      exact ⟨bytes, rfl, rfl, rfl⟩
    · rintro ⟨_, h, rfl, rfl⟩
      exact Except.ok.inj h ▸ rfl

/-- A hash is noted where it is made. -/
theorem always_recordHash {P : HashCall → Prop} {place : HashPlace} {operands : place.Operands}
    {input : Except Error Bytes} (h : ∀ bytes, P ⟨place, operands, bytes⟩) :
    (d.recordHash place operands input).Always P := by
  intro _ _ hrun
  obtain ⟨bytes, -, -, rfl⟩ := run_recordHash_eq_ok_iff.1 hrun
  exact List.forall_mem_singleton.2 (h bytes)

/-- Two calls at one place with the same output hash the same operands or collide, if the operands
can be told from the byte string that is hashed. -/
theorem operands_eq_or_collision {place : HashPlace} {operands operands' : place.Operands}
    {input input' : Except Error Bytes} {output : Bytes} {calls calls' : List HashCall}
    (hinput : ∀ bytes, input = .ok bytes → input' = .ok bytes → operands = operands')
    (h : (d.recordHash place operands input).run = .ok (output, calls))
    (h' : (d.recordHash place operands' input').run = .ok (output, calls')) :
    operands = operands' ∨ Collision d calls calls' := by
  obtain ⟨bytes, hbytes, hhash, rfl⟩ := run_recordHash_eq_ok_iff.1 h
  obtain ⟨bytes', hbytes', hhash', rfl⟩ := run_recordHash_eq_ok_iff.1 h'
  by_cases hsame : operands = operands'
  · exact .inl hsame
  · have hne : bytes ≠ bytes' := by
      rintro rfl
      exact hsame (hinput bytes hbytes hbytes')
    exact .inr ⟨place, operands, operands', bytes, bytes', List.mem_singleton_self _,
      List.mem_singleton_self _, hsame, hne, hhash.symm.trans hhash'⟩

section Message

/-- The byte string that is hashed for a message. -/
def messageInput (d : Digest) (randomness root : Bytes) (index : Nat) (message : Bytes) :
    Except Error Bytes := do
  checkLength "randomness" randomness d.size
  checkLength "root" root d.size
  let key := randomness ++ root ++ Bytes.toBigEndian d.size index
  checkLength "H_msg key" key (3 * d.size)
  return d.framed .message key message

/-- The block of a message is the hash of one byte string. -/
theorem messageDigest_eq (randomness root : Bytes) (index : Nat) (message : Bytes) :
    d.messageDigest randomness root index message =
      d.messageInput randomness root index message >>= fun input => .ok (d.hash input) := by
  simp only [messageDigest, messageInput, messageHash, bind_assoc, pure_bind, keyed]
  rfl

/-- Hash a message, and note the call. -/
def recordMessage (d : Digest) (randomness root : Bytes) (index : Nat) (message : Bytes) :
    Recorded HashCall Bytes :=
  d.recordHash .message (randomness, message) (d.messageInput randomness root index message)

@[simp] theorem value_recordMessage (randomness root : Bytes) (index : Nat) (message : Bytes) :
    (d.recordMessage randomness root index message).value =
      d.messageDigest randomness root index message := by
  simp [recordMessage, messageDigest_eq]

/-- The randomness and the message can be told from what is hashed. -/
theorem messageInput_inj {randomness randomness' root message message' input : Bytes} {index : Nat}
    (h : d.messageInput randomness root index message = .ok input)
    (h' : d.messageInput randomness' root index message' = .ok input) :
    (randomness, message) = (randomness', message') := by
  obtain ⟨hlength, h⟩ := checkLength_bind_eq_ok_iff.1 h
  obtain ⟨-, h⟩ := checkLength_bind_eq_ok_iff.1 h
  obtain ⟨hkey, h⟩ := checkLength_bind_eq_ok_iff.1 h
  obtain ⟨hlength', h'⟩ := checkLength_bind_eq_ok_iff.1 h'
  obtain ⟨-, h'⟩ := checkLength_bind_eq_ok_iff.1 h'
  obtain ⟨hkey', h'⟩ := checkLength_bind_eq_ok_iff.1 h'
  obtain ⟨hkeyEq, hmessage⟩ := framed_inj (hkey.trans hkey'.symm)
    ((Except.ok.inj h).trans (Except.ok.inj h').symm)
  rw [List.append_assoc, List.append_assoc] at hkeyEq
  exact congrArg₂ Prod.mk (List.append_inj hkeyEq (hlength.trans hlength'.symm)).1 hmessage

/-- Under one root and index, messages with the same block are the same message with the same
randomness, or they collide. -/
theorem message_eq_or_collision {randomness randomness' root message message' block : Bytes}
    {index : Nat} {calls calls' : List HashCall}
    (h : (d.recordMessage randomness root index message).run = .ok (block, calls))
    (h' : (d.recordMessage randomness' root index message').run = .ok (block, calls')) :
    (randomness, message) = (randomness', message') ∨ Collision d calls calls' :=
  operands_eq_or_collision (fun _ => messageInput_inj) h h'

end Message

section Join

/-- The byte string that is hashed to join two nodes. -/
def joinInput (d : Digest) (left right publicSeed : Bytes) (address : Address) :
    Except Error Bytes := do
  checkLength "left node" left d.size
  checkLength "right node" right d.size
  let key ← d.prfAddress publicSeed (address.withKeyAndMask 0)
  let leftMask ← d.prfAddress publicSeed (address.withKeyAndMask 1)
  let rightMask ← d.prfAddress publicSeed (address.withKeyAndMask 2)
  let input := Bytes.xor left leftMask ++ Bytes.xor right rightMask
  checkLength "H key" key d.size
  checkLength "H input" input (2 * d.size)
  return d.framed .node key input

/-- A joined node is the hash of one byte string. -/
theorem joinNodes_eq (left right publicSeed : Bytes) (address : Address) :
    d.joinNodes left right publicSeed address =
      d.joinInput left right publicSeed address >>= fun input => .ok (d.hash input) := by
  simp only [joinNodes, joinInput, nodeHash, bind_assoc, pure_bind, keyed]
  rfl

/-- The two nodes can be told from what is hashed. -/
theorem joinInput_inj {left left' right right' publicSeed input : Bytes} {address : Address}
    (h : d.joinInput left right publicSeed address = .ok input)
    (h' : d.joinInput left' right' publicSeed address = .ok input) :
    (left, right) = (left', right') := by
  obtain ⟨hleft, h⟩ := checkLength_bind_eq_ok_iff.1 h
  obtain ⟨hright, h⟩ := checkLength_bind_eq_ok_iff.1 h
  obtain ⟨key, hkey, h⟩ := bind_eq_ok_iff.1 h
  obtain ⟨leftMask, hleftMask, h⟩ := bind_eq_ok_iff.1 h
  obtain ⟨rightMask, hrightMask, h⟩ := bind_eq_ok_iff.1 h
  obtain ⟨-, h⟩ := checkLength_bind_eq_ok_iff.1 h
  obtain ⟨hmasked, h⟩ := checkLength_bind_eq_ok_iff.1 h
  obtain ⟨hleft', h'⟩ := checkLength_bind_eq_ok_iff.1 h'
  obtain ⟨hright', h'⟩ := checkLength_bind_eq_ok_iff.1 h'
  rw [hkey, ok_bind, hleftMask, ok_bind, hrightMask, ok_bind] at h'
  obtain ⟨-, h'⟩ := checkLength_bind_eq_ok_iff.1 h'
  obtain ⟨-, h'⟩ := checkLength_bind_eq_ok_iff.1 h'
  -- The masked nodes have their full length, so the masks are not shorter than the nodes.
  rw [List.length_append, Bytes.length_xor, Bytes.length_xor] at hmasked
  have hnodes := (framed_inj rfl ((Except.ok.inj h).trans (Except.ok.inj h').symm)).2
  obtain ⟨hleftEq, hrightEq⟩ := List.append_inj hnodes (by simp [hleft, hleft'])
  exact congrArg₂ Prod.mk (Bytes.xor_right_inj (hleft.trans hleft'.symm) (by omega) hleftEq)
    (Bytes.xor_right_inj (hright.trans hright'.symm) (by omega) hrightEq)

/-- Joining nodes of the L-tree of a leaf, with a record. -/
def recordLTreeJoin (d : Digest) (publicSeed : Bytes) (position : TreePosition) (leaf : Nat) :
    RecordedJoin HashCall := fun height index left right =>
  d.recordHash (.lTree position leaf height index) (left, right)
    (d.joinInput left right publicSeed (position.lTreeAddress leaf height index))

/-- Joining nodes of a hash tree, with a record. -/
def recordHashTreeJoin (d : Digest) (publicSeed : Bytes) (position : TreePosition) :
    RecordedJoin HashCall := fun height index left right =>
  d.recordHash (.hashTree position height index) (left, right)
    (d.joinInput left right publicSeed (position.hashTreeAddress height index))

end Join

end Digest

/-- Two pairs with the same parent at one index are the same pair, or their joins collide. -/
def PairBinding (d : Digest) (pair : Nat → Bytes → Bytes → Recorded HashCall Bytes) : Prop :=
  ∀ ⦃index : Nat⦄ ⦃left left' right right' parent : Bytes⦄ ⦃calls calls' : List HashCall⦄,
    (pair index left right).run = .ok (parent, calls) →
      (pair index left' right').run = .ok (parent, calls') →
        (left, right) = (left', right') ∨ Collision d calls calls'

/-- Two joins with the same result at one place join the same nodes or collide. -/
def RecordedJoin.Binding (d : Digest) (join : RecordedJoin HashCall) : Prop :=
  ∀ height, PairBinding d (join height)

namespace Digest

variable {d : Digest} {publicSeed : Bytes} {position : TreePosition}

@[simp] theorem value_recordLTreeJoin (leaf : Nat) :
    RecordedJoin.value (d.recordLTreeJoin publicSeed position leaf) =
      d.lTreeJoin publicSeed position leaf := by
  funext height index left right
  simp [RecordedJoin.value, recordLTreeJoin, lTreeJoin, joinNodes_eq]

@[simp] theorem value_recordHashTreeJoin :
    RecordedJoin.value (d.recordHashTreeJoin publicSeed position) =
      d.hashTreeJoin publicSeed position := by
  funext height index left right
  simp [RecordedJoin.value, recordHashTreeJoin, hashTreeJoin, joinNodes_eq]

/-- Joining nodes of an L-tree is binding. -/
theorem binding_recordLTreeJoin (leaf : Nat) :
    RecordedJoin.Binding d (d.recordLTreeJoin publicSeed position leaf) :=
  fun _ _ _ _ _ _ _ _ _ => operands_eq_or_collision fun _ => joinInput_inj

/-- Joining nodes of a hash tree is binding. -/
theorem binding_recordHashTreeJoin :
    RecordedJoin.Binding d (d.recordHashTreeJoin publicSeed position) :=
  fun _ _ _ _ _ _ _ _ _ => operands_eq_or_collision fun _ => joinInput_inj

end Digest

end MerkleSignature
