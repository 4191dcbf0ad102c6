import MerkleSignature.Proofs.Bytes
import MerkleSignature.Proofs.LTree

/-!
# The levels of an L-tree

An L-tree can be read level by level: each level is a new list, made of the joined pairs of the
level below and of the node that was left over there. The rounds that work in one buffer compute
exactly these levels. A round writes its parents over the front of the buffer from which it is still
reading, but it reads ahead of where it writes: pair `i` is read at `2 * i` and `2 * i + 1`, and its
parent is written to `i`. What a round has not read yet is therefore as the level below left it.
-/

namespace MerkleSignature.LTree

/-- The level above some nodes: neighbours are joined in pairs, numbered from `index` on, and a node
left over at the end moves up as it is. -/
def nextLevel (pair : Nat → Bytes → Bytes → Except Error Bytes) :
    (index : Nat) → (nodes : List Bytes) → Except Error (List Bytes)
  | _, [] => .ok []
  | _, [last] => .ok [last]
  | index, left :: right :: nodes => do
    let parent ← pair index left right
    let parents ← nextLevel pair (index + 1) nodes
    return parent :: parents

/-- A level has half as many nodes as the one below, rounded up. -/
theorem length_of_nextLevel {pair : Nat → Bytes → Bytes → Except Error Bytes} {index : Nat}
    {nodes level : List Bytes} (h : nextLevel pair index nodes = .ok level) :
    level.length = (nodes.length + 1) / 2 := by
  induction index, nodes using nextLevel.induct generalizing level with
  | case1 index =>
    obtain rfl := Except.ok.inj h
    simp
  | case2 index last =>
    obtain rfl := Except.ok.inj h
    simp
  | case3 index left right nodes ih =>
    obtain ⟨parent, -, h⟩ := bind_eq_ok_iff.1 h
    obtain ⟨parents, hparents, h⟩ := bind_eq_ok_iff.1 h
    obtain rfl := Except.ok.inj h
    simp only [List.length_cons, ih hparents]
    omega

/-- Above some nodes there is a node. -/
theorem ne_nil_of_nextLevel {pair : Nat → Bytes → Bytes → Except Error Bytes} {index : Nat}
    {nodes level : List Bytes} (hne : nodes ≠ []) (h : nextLevel pair index nodes = .ok level) :
    level ≠ [] := by
  have hpos := List.length_pos_iff.2 hne
  rw [← List.length_pos_iff, length_of_nextLevel h]
  omega

/-- Go up level by level, from the level at a height, until one node is left. -/
def levels (join : Join) (height : Nat) (nodes : List Bytes) : Except Error (List Bytes) :=
  if nodes.length ≤ 1 then .ok nodes
  else
    match hlevel : nextLevel (join height) 0 nodes with
    | .error e => .error e
    | .ok level => levels join (height + 1) level
termination_by nodes.length
decreasing_by
  rw [length_of_nextLevel hlevel]
  omega

/-- More than one node is left to the levels above. -/
theorem levels_of_lt {join : Join} {height : Nat} {nodes : List Bytes} (h : 1 < nodes.length) :
    levels join height nodes = nextLevel (join height) 0 nodes >>= levels join (height + 1) := by
  rw [levels, if_neg (Nat.not_le.2 h)]
  split <;> simp_all

section Buffer

variable {buffer : Array Bytes} {index : Nat} {nodes : List Bytes}

/-- Nodes stand in a buffer, from an index on. -/
def Holds (buffer : Array Bytes) : (index : Nat) → (nodes : List Bytes) → Prop
  | _, [] => True
  | index, node :: nodes => buffer[index]? = some node ∧ Holds buffer (index + 1) nodes

/-- Write nodes into a buffer, from an index on. -/
def overwrite (buffer : Array Bytes) : (index : Nat) → (nodes : List Bytes) → Array Bytes
  | _, [] => buffer
  | index, node :: nodes => overwrite (buffer.setIfInBounds index node) (index + 1) nodes

/-- A list stands in its own buffer. -/
theorem holds_toArray (front nodes : List Bytes) :
    Holds (front ++ nodes).toArray front.length nodes := by
  induction nodes generalizing front with
  | nil => trivial
  | cons node nodes ih =>
    constructor
    · simp
    · simpa using ih (front ++ [node])

/-- Writing in front of nodes leaves them where they are. -/
theorem Holds.setIfInBounds (h : Holds buffer index nodes) {i : Nat} (hi : i < index)
    (node : Bytes) : Holds (buffer.setIfInBounds i node) index nodes := by
  induction nodes generalizing index with
  | nil => trivial
  | cons first nodes ih =>
    constructor
    · rw [Array.getElem?_setIfInBounds_ne (by omega), h.1]
    · exact ih h.2 (by omega)

/-- Writing nodes changes nothing in front of them. -/
theorem getElem?_overwrite_of_lt {i : Nat} (hi : i < index) :
    (overwrite buffer index nodes)[i]? = buffer[i]? := by
  induction nodes generalizing buffer index with
  | nil => rfl
  | cons node nodes ih =>
    rw [overwrite, ih (Nat.lt_succ_of_lt hi), Array.getElem?_setIfInBounds_ne (by omega)]

/-- Writing nodes keeps the size of the buffer. -/
@[simp] theorem size_overwrite : (overwrite buffer index nodes).size = buffer.size := by
  induction nodes generalizing buffer index with
  | nil => rfl
  | cons node nodes ih => rw [overwrite, ih, Array.size_setIfInBounds]

/-- Nodes that fit into a buffer stand where they were written. -/
theorem holds_overwrite (hfit : index + nodes.length ≤ buffer.size) :
    Holds (overwrite buffer index nodes) index nodes := by
  induction nodes generalizing buffer index with
  | nil => trivial
  | cons node nodes ih =>
    rw [List.length_cons] at hfit
    constructor
    · rw [overwrite, getElem?_overwrite_of_lt (Nat.lt_succ_self index),
        Array.getElem?_setIfInBounds_self_of_lt (by omega)]
    · exact ih (by simp; omega)

end Buffer

section Rounds

variable (pair : Nat → Bytes → Bytes → Except Error Bytes) {buffer : Array Bytes}
  {nodes : List Bytes}

/-- Joining the pairs of some nodes in the buffer, and moving up a node that is left over, writes
the level above these nodes. -/
theorem joinPairs_carry (index : Nat) (h : Holds buffer (2 * index) nodes) :
    (joinPairs pair (nodes.length / 2) index buffer >>= fun joined =>
      .ok (if nodes.length % 2 = 1 then
        joined.setIfInBounds (index + nodes.length / 2)
          (joined.getD (2 * index + nodes.length - 1) [])
      else joined)) =
      nextLevel pair index nodes >>= fun level => .ok (overwrite buffer index level) := by
  induction index, nodes using nextLevel.induct generalizing buffer with
  | case1 index => rfl
  | case2 index last => simp [joinPairs, nextLevel, overwrite, h.1]
  | case3 index left right nodes ih =>
    obtain ⟨hleft, hright, hunread⟩ := h
    have hhalf : (nodes.length + 1 + 1) / 2 = nodes.length / 2 + 1 := by omega
    have hodd : (nodes.length + 1 + 1) % 2 = nodes.length % 2 := by omega
    have hfree : index + (nodes.length / 2 + 1) = index + 1 + nodes.length / 2 := by omega
    have hlast : 2 * index + (nodes.length + 1 + 1) - 1 = 2 * (index + 1) + nodes.length - 1 := by
      omega
    simp only [List.length_cons, hhalf, hodd, hfree, hlast, joinPairs, nextLevel, bind_assoc,
      pure_bind, Array.getD_eq_getD_getElem?, hleft, hright, Option.getD_some]
    apply bind_congr
    intro parent
    -- The parent is written in front of the nodes that have not been read.
    have hkept := hunread.setIfInBounds (show index < 2 * (index + 1) by omega) parent
    simpa only [Array.getD_eq_getD_getElem?, overwrite] using ih hkept

/-- A round turns the nodes at the front of the buffer into the level above them. -/
theorem round_eq_nextLevel (h : Holds buffer 0 nodes) :
    round pair nodes.length buffer =
      nextLevel pair 0 nodes >>= fun level => .ok (overwrite buffer 0 level) := by
  have hcarry := joinPairs_carry pair 0 h
  simpa only [round, Nat.mul_zero, Nat.zero_add, pure_eq_ok] using hcarry

/-- The rounds leave the top level at the front of the buffer. -/
theorem compress_eq_levels {join : Join} {height : Nat} (hne : nodes ≠ [])
    (h : Holds buffer 0 nodes) (hfit : nodes.length ≤ buffer.size) :
    (compress join height nodes.length buffer >>= fun after => .ok [after.getD 0 []]) =
      levels join height nodes := by
  induction height, nodes using levels.induct join generalizing buffer with
  | case1 height nodes hone =>
    obtain ⟨node, rfl⟩ :=
      List.length_eq_one_iff.1 (Nat.le_antisymm hone (List.length_pos_iff.2 hne))
    simp [compress, levels, h.1]
  | case2 height nodes hmore e hlevel =>
    rw [compress, if_neg hmore, levels_of_lt (Nat.not_le.1 hmore), round_eq_nextLevel _ h, hlevel]
    rfl
  | case3 height nodes hmore level hlevel ih =>
    have hlength := length_of_nextLevel hlevel
    have hholds : Holds (overwrite buffer 0 level) 0 level := holds_overwrite (by omega)
    rw [compress, if_neg hmore, levels_of_lt (Nat.not_le.1 hmore), round_eq_nextLevel _ h, hlevel]
    simp only [ok_bind, ← hlength]
    exact ih (ne_nil_of_nextLevel hne hlevel) hholds (by rw [size_overwrite]; omega)

end Rounds

section Root

variable {d : Digest} {publicSeed : Bytes}

/-- Some elements of `n` bytes make up a public key. -/
theorem fit_of_elements {elements : List Bytes} (hne : elements ≠ [])
    (helements : ∀ element ∈ elements, element.length = d.size) :
    elements.flatten ≠ [] ∧ d.size ∣ elements.flatten.length := by
  have hlength := length_flatten_of_forall helements
  constructor
  · rw [← List.length_pos_iff, hlength]
    exact Nat.mul_pos (List.length_pos_iff.2 hne) d.size_pos
  · rw [hlength]
    exact Nat.dvd_mul_left _ _

/-- The L-tree of some elements of `n` bytes has its top level as root. -/
theorem root_flatten_eq_levels {elements : List Bytes} (hne : elements ≠ [])
    (helements : ∀ element ∈ elements, element.length = d.size) (position : TreePosition)
    (leaf : Nat) :
    (root d elements.flatten publicSeed position leaf >>= fun value => .ok [value]) =
      levels (d.lTreeJoin publicSeed position leaf) 0 elements := by
  obtain ⟨hnonempty, hdvd⟩ := fit_of_elements hne helements
  rw [root_of_fit hnonempty hdvd, chunks_flatten d.size_pos helements, bind_assoc]
  exact compress_eq_levels hne (holds_toArray [] elements) (Nat.le_of_eq List.size_toArray.symm)

end Root

/-- The root of an L-tree is the node at the top of its levels, for every positive number of
elements of `n` bytes. Public keys that do not consist of such elements are refused, and no other
public key is. -/
theorem root_eq_top_level {d : Digest} {publicSeed : Bytes} (hseed : publicSeed.length = d.size)
    (position : TreePosition) (leaf : Nat) :
    (∀ elements : List Bytes, elements ≠ [] → (∀ element ∈ elements, element.length = d.size) →
      ∃ value, levels (d.lTreeJoin publicSeed position leaf) 0 elements = .ok [value] ∧
        root d elements.flatten publicSeed position leaf = .ok value) ∧
    ∀ (publicKey : Bytes) (e : Error),
      root d publicKey publicSeed position leaf = .error e ↔
        (publicKey = [] ∨ ¬ d.size ∣ publicKey.length) ∧
          e = .invalidLength "WOTS+ public key"
            (d.size * max ((publicKey.length + d.size - 1) / d.size) 1) publicKey.length := by
  constructor
  · intro elements hne helements
    obtain ⟨hnonempty, hdvd⟩ := fit_of_elements hne helements
    obtain ⟨value, hvalue, -⟩ := root_yields hseed hnonempty hdvd position leaf
    refine ⟨value, ?_, hvalue⟩
    rw [← root_flatten_eq_levels hne helements, hvalue, ok_bind]
  · intro publicKey e
    by_cases hunfit : publicKey = [] ∨ ¬ d.size ∣ publicKey.length
    · rw [root_of_unfit hunfit]
      simp [hunfit, eq_comm]
    · obtain ⟨hne, hdvd⟩ := not_or.1 hunfit
      obtain ⟨value, hvalue, -⟩ :=
        root_yields hseed hne (Classical.not_not.1 hdvd) position leaf
      simp [hvalue, hunfit]

/-- Some different elements of 32 bytes each. -/
def numberedElements (count : Nat) : List Bytes :=
  (List.range count).map fun i => List.replicate 32 (UInt8.ofNat i)

/-- The public key with 67 elements, as for blocks of 32 bytes in base 16. An element is left over
on the way at 67, 17, 9, 5 and 3 nodes, and none at 34 and 2. -/
theorem root_eq_top_level_numberedElements :
    (List.replicate 32 (0 : UInt8)).length = Digest.sha256.size ∧ numberedElements 67 ≠ [] ∧
      ∃ value,
        levels (Digest.sha256.lTreeJoin (List.replicate 32 0) {} 0) 0 (numberedElements 67) =
          .ok [value] ∧
        root .sha256 (numberedElements 67).flatten (List.replicate 32 0) {} 0 = .ok value := by
  have hseed : (List.replicate 32 (0 : UInt8)).length = Digest.sha256.size := List.length_replicate
  have hne : numberedElements 67 ≠ [] := by simp [numberedElements]
  refine ⟨hseed, hne, (root_eq_top_level hseed {} 0).1 (numberedElements 67) hne ?_⟩
  intro element helement
  obtain ⟨i, -, rfl⟩ := List.mem_map.1 helement
  exact List.length_replicate

end MerkleSignature.LTree
