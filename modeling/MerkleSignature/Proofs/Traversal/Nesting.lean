import MerkleSignature.Proofs.Traversal.Moving

/-!
# The nodes on the shared stack are nested

The builders of a traversal share one stack, and no entry of it says whose it is. A builder only
counts how many of the topmost nodes are its own, and looks at so many nodes from the top. That is
sound because the nodes are nested: those of lower levels lie on top of those of higher ones,
heights increase strictly from the top down, and the builder that is served either owns the topmost
nodes or none at all.

This holds when a traversal is ready at a leaf and after every single update on the way to the next
leaf. A move never starts a builder that is under way, so that no node is left without an owner.
-/

namespace MerkleSignature.Traversal

open MerkleTree SubtreeBuilder

/-- The nodes of the shared stack that a builder owns: as many as it counts, and some exactly when
it is active. They are then the peaks of the leaves that it has taken in. -/
structure Owns (t : MerkleTree) (b : SubtreeBuilder) (own : NodeStack) : Prop where
  length_eq : own.length = b.ownNodes
  active_iff : b.phase = .active ↔ own ≠ []
  peaks_of_active : b.phase = .active → ∃ start count, 2 ^ b.target ∣ start ∧
    count < 2 ^ b.target ∧ b.next = start + count ∧ own = t.peaks start 0 count

/-- The nodes on the shared stack are nested: heights increase strictly from the top down and stay
below the root, the nodes of the builders follow each other by level, and those of the builder that
is served next are on top. -/
structure Nested (t : MerkleTree) (s : Traversal) : Prop where
  pairwise_height : s.stack.Pairwise fun a b => a.height < b.height
  height_lt : ∀ node ∈ s.stack, node.height < t.height
  length_le : s.stack.length ≤ t.height
  target_eq : ∀ (level : Nat) (b : SubtreeBuilder), s.builders[level]? = some b →
    b.target = level
  exists_blocks : ∃ blocks : List NodeStack, s.stack = blocks.flatten ∧
    List.Forall₂ (Owns t) s.builders blocks ∧
    ∀ level, s.lowestBuilder? = some level → ∃ own, blocks[level]? = some own ∧ own <+: s.stack

variable {t : MerkleTree} {leaf level : Nat} {work : Workload} {s : Traversal}

/-- The builder of a level builds subtrees of this height. -/
theorem BuilderAt.target_eq {missing : Nat} {b : SubtreeBuilder}
    (hb : BuilderAt t leaf level missing b) : b.target = level := by
  cases hb with
  | waiting htarget _ _ _ => exact htarget
  | busy _ _ => rfl

/-- A builder owns the nodes that the workload says. -/
theorem BuilderAt.owns {b : SubtreeBuilder} (hb : BuilderAt t leaf level (work level) b) :
    Owns t b (block t leaf work level) := by
  unfold block
  generalize work level = missing at hb ⊢
  cases hb with
  | waiting _ hown hphase _ =>
    rw [if_pos rfl]
    refine ⟨hown.symm, ?_, fun hactive => ?_⟩
    · simp [hphase]
    · rw [hphase] at hactive
      contradiction
  | busy hpos _ =>
    rw [if_neg (Nat.ne_of_gt hpos)]
    have hlt : 2 ^ level - missing < 2 ^ level := Nat.sub_lt (Nat.two_pow_pos level) hpos
    refine ⟨rfl, ?_, fun _ => ⟨_, _, aligned_aheadStart leaf level, hlt, rfl, rfl⟩⟩
    rcases Nat.eq_zero_or_pos (2 ^ level - missing) with hzero | hsome
    · simp [working, hzero]
    · simp [working, Nat.ne_of_gt hsome, peaks_ne_nil hsome]

/-- A traversal that stands somewhere with a disciplined workload has its nodes nested. -/
theorem Stands.nested (hwork : Disciplined t.height work) (hs : Stands t leaf work s) :
    Nested t s := by
  have hpairwise : s.stack.Pairwise fun a b => a.height < b.height := by
    rw [hs.stack_eq]
    exact pairwise_height_blocks leaf hwork
  have hheight : ∀ node ∈ s.stack, node.height < t.height := by
    intro node hnode
    rw [hs.stack_eq] at hnode
    obtain ⟨level, hlevel, hmem⟩ := List.mem_flatMap.1 hnode
    exact (height_lt_of_mem_block hmem).trans (List.mem_range.1 hlevel)
  refine ⟨hpairwise, hheight, ?_, fun level b hb => ?_,
    (List.range t.height).map (block t leaf work), ?_, ?_, fun level hlevel => ?_⟩
  · have hlength := length_le_of_pairwise_lt (List.pairwise_map.2 hpairwise)
      (List.forall_mem_map.2 hheight)
    rwa [List.length_map] at hlength
  · exact (hs.builders_eq level b hb).target_eq
  · rw [hs.stack_eq, blocks, List.flatMap_def]
  · refine List.forall₂_iff_get.2 ⟨?_, fun level hlevel _ => ?_⟩
    · rw [List.length_map, List.length_range, hs.length_builders]
    · have hb : s.builders[level]? = some s.builders[level] := List.getElem?_eq_getElem hlevel
      simpa using (hs.builders_eq level _ hb).owns
  · have hnext := isNext_of_some hwork hs hlevel
    have hlow := hwork.low level hnext.pos
    obtain ⟨below, hblocks, -⟩ := blocks_serve leaf hwork hnext
    refine ⟨block t leaf work level, ?_, below, ?_⟩
    · rw [List.getElem?_map, List.getElem?_range (by omega)]
      rfl
    · rw [hs.stack_eq, hblocks]

/-- What a budget is spent on is spent in two parts as well. -/
theorem spend_add {first : Nat} {between : Traversal} (h : s.spend t first = .ok between)
    (second : Nat) : s.spend t (first + second) = between.spend t second := by
  induction first generalizing s with
  | zero =>
    obtain rfl : s = between := Except.ok.inj h
    rw [Nat.zero_add]
  | succ first ih =>
    rw [Nat.succ_add, spend]
    rw [spend] at h
    cases hlowest : s.lowestBuilder? with
    | none =>
      -- Without a running builder nothing is spent, in either part.
      rw [hlowest] at h
      obtain rfl : s = between := Except.ok.inj h
      cases second with
      | zero => rfl
      | succ second => rw [spend, hlowest]
    | some level =>
      rw [hlowest] at h
      dsimp only at h ⊢
      cases hb : s.builders[level]? with
      | none =>
        rw [hb] at h
        obtain rfl : s = between := Except.ok.inj h
        cases second with
        | zero => rfl
        | succ second => simp only [spend, hlowest, hb]
      | some b =>
        rw [hb] at h
        dsimp only at h ⊢
        cases hupdate : b.update t s.stack with
        | error failure =>
          rw [hupdate] at h
          contradiction
        | ok updated =>
          rw [hupdate] at h
          exact ih h

/-- The builders that a move starts anew are complete and own no nodes. -/
theorem Stands.complete_of_lt (hwork : OnSchedule t.height leaf work) (hs : Stands t leaf work s)
    (hleaf : leaf + 1 < 2 ^ t.height) {b : SubtreeBuilder} (hb : s.builders[level]? = some b)
    (hlevel : level < firstLeftHeight s.height leaf) : b.phase = .complete ∧ b.ownNodes = 0 := by
  have htau := (firstLeftHeight_spec (hs.height_eq ▸ hleaf)).2
  have hbuilder := hs.builders_eq level b hb
  rw [hwork.work_eq_zero ((htau (level + 1)).2 hlevel)] at hbuilder
  cases hbuilder with
  | waiting _ hown hphase _ => exact ⟨hphase, hown⟩
  | busy hpos _ => exact absurd hpos (Nat.lt_irrefl 0)

/-- When a traversal is ready at a leaf the nodes on its stack are nested. -/
theorem ReadyAt.nested (hs : ReadyAt t leaf s) : Nested t s := by
  obtain ⟨work, hwork, hs⟩ := hs
  exact hs.nested hwork.toDisciplined

/-- A move from one leaf to the next, seen from within: it passes on complete builders that own no
nodes, it does not touch the stack, and then it spends its leaves one after the other, with the
nodes nested after each. -/
structure MovesNested (t : MerkleTree) (leaf : Nat) (s moved : Traversal) : Prop where
  round_eq : s.round t leaf = .ok moved
  builders_eq : moved.builders =
    s.builders.mapIdx (passOn s.height (firstLeftHeight s.height leaf) leaf)
  complete : ∀ level b, s.builders[level]? = some b → level < firstLeftHeight s.height leaf →
    b.phase = .complete ∧ b.ownNodes = 0
  stack_eq : moved.stack = s.stack
  spend_nested : ∀ count, count ≤ moveBudget s.height → ∃ between,
    moved.spend t count = .ok between ∧ Nested t between ∧
      between.spend t (moveBudget s.height - count) = s.advance t leaf

/-- A traversal that is ready at a leaf moves on with its nodes nested all the way. -/
theorem ReadyAt.movesNested (total : t.Total) (hheight : t.height ≤ maxTreeHeight)
    (hs : ReadyAt t leaf s) (hleaf : leaf + 1 < 2 ^ t.height) :
    ∃ moved, MovesNested t leaf s moved := by
  obtain ⟨work, hwork, hs⟩ := hs
  obtain ⟨moved, hround, hmoved, hbuilders, hstack⟩ := hs.round total hheight hwork hleaf
  rw [← hs.height_eq] at hbuilders
  refine ⟨moved, hround, hbuilders, fun level b hb => hs.complete_of_lt hwork hleaf hb, hstack,
    fun count hcount => ?_⟩
  obtain ⟨after, between, hspend, hspent, hbetween⟩ :=
    hmoved.spend total hheight hwork.disciplined_restart count
  refine ⟨between, hspend, hbetween.nested (hwork.disciplined_restart.spent hspent), ?_⟩
  have hlast : leaf < lastLeaf s.height := by
    rw [lastLeaf, hs.height_eq]
    omega
  have hheights : moved.height = s.height := hmoved.height_eq.trans hs.height_eq.symm
  rw [advance_eq_spend hlast hround, hheights, ← spend_add hspend,
    Nat.add_sub_cancel' hcount]

end MerkleSignature.Traversal
