import MerkleSignature.Proofs.Winternitz.OneTime

/-!
# Walks within a chain

A chain has `w` positions, and a walk may end at the last one but not pass it. Whether it would is
asked first and in natural numbers, so a walk is refused for this reason exactly when its start and
its steps add up to more than `w - 1`, even if their sum exceeds a word. What can go wrong after
that is the length of the element or of the public seed, and nothing goes wrong with elements and
seeds of `n` bytes: a walk then leads to an element of `n` bytes, from which one can walk on. As
each step takes its key and mask from its position on the chain, it does not matter where a walk is
split.
-/

namespace MerkleSignature.Winternitz.OneTime

variable {s : OneTime} {position : TreePosition} {leaf i : Nat} {element : Bytes}
  {start steps : Nat}

/-- A walk within the chain is checked for its element only. -/
theorem chain_of_le (h : start + steps ≤ s.params.w - 1) :
    s.chain element start steps position leaf i =
      checkLength "chain input" element s.params.n >>= fun _ =>
        s.walk position leaf i start steps element :=
  if_neg (Nat.not_lt.2 h)

/-- Without a public seed of `n` bytes no step is taken. -/
theorem next_of_seed_ne (hseed : s.publicSeed.length ≠ s.digest.size) (step : Nat) :
    s.next position leaf i step element =
      .error (.invalidLength "PRF key" s.digest.size s.publicSeed.length) := by
  rw [next, Digest.prfAddress, Digest.prf, checkLength, if_neg hseed]
  rfl

/-- A walk from an element of `n` bytes fails only for the length of the public seed. -/
theorem eq_invalidLength_of_walk (helement : element.length = s.digest.size) {e : Error}
    (h : s.walk position leaf i start steps element = .error e) :
    e = .invalidLength "PRF key" s.digest.size s.publicSeed.length := by
  by_cases hseed : s.publicSeed.length = s.digest.size
  · obtain ⟨value, hvalue, -⟩ := walk_yields hseed position leaf i helement start steps
    rw [hvalue] at h
    contradiction
  · cases steps with
    | zero => contradiction
    | succ steps =>
      rw [walk, next_of_seed_ne hseed] at h
      exact (Except.error.inj h).symm

/-- A walk is refused because of the end of the chain exactly when it would pass it. -/
theorem chain_eq_chainOutOfRange_iff {start' steps' w : Nat} :
    s.chain element start steps position leaf i = .error (.chainOutOfRange start' steps' w) ↔
      s.params.w - 1 < start + steps ∧ start' = start ∧ steps' = steps ∧ w = s.params.w := by
  rcases Nat.lt_or_ge (s.params.w - 1) (start + steps) with hpast | hwithin
  · rw [chain, if_pos hpast]
    constructor
    · intro h
      obtain ⟨rfl, rfl, rfl⟩ := Error.chainOutOfRange.inj (Except.error.inj h)
      exact ⟨hpast, rfl, rfl, rfl⟩
    · rintro ⟨-, rfl, rfl, rfl⟩
      rfl
  · refine ⟨fun h => ?_, fun h => absurd h.1 (Nat.not_lt.2 hwithin)⟩
    rw [chain_of_le hwithin] at h
    by_cases hlength : element.length = s.params.n
    · rw [checkLength_eq_ok hlength, ok_bind] at h
      have herror := eq_invalidLength_of_walk hlength h
      contradiction
    · rw [checkLength, if_neg hlength, error_bind] at h
      cases h

/-- Walks within a chain compose, and no others are taken. With a public seed of `n` bytes, a walk
from an element of `n` bytes that stays within the chain leads to an element of `n` bytes; walking
on from there leads where the whole walk leads, and a walk of no steps stays where it is. A walk is
refused because of the end of the chain exactly when it would pass it. -/
theorem chain_composes_within_bounds (s : OneTime) (position : TreePosition) (leaf i : Nat) :
    (s.publicSeed.length = s.digest.size →
      ∀ (element : Bytes) (start first second : Nat), element.length = s.digest.size →
        start + first + second ≤ s.params.w - 1 →
        s.chain element start 0 position leaf i = .ok element ∧
        ∃ middle last, s.chain element start first position leaf i = .ok middle ∧
          middle.length = s.digest.size ∧
          s.chain middle (start + first) second position leaf i = .ok last ∧
          s.chain element start (first + second) position leaf i = .ok last) ∧
    ∀ (element : Bytes) (start steps start' steps' w : Nat),
      s.chain element start steps position leaf i = .error (.chainOutOfRange start' steps' w) ↔
        s.params.w - 1 < start + steps ∧ start' = start ∧ steps' = steps ∧ w = s.params.w := by
  refine ⟨fun hseed element start first second helement hfit => ?_,
    fun _ _ _ _ _ _ => chain_eq_chainOutOfRange_iff⟩
  obtain ⟨middle, hfirst, hmiddle⟩ := walk_yields hseed position leaf i helement start first
  obtain ⟨last, hsecond, -⟩ := walk_yields hseed position leaf i hmiddle (start + first) second
  refine ⟨?_, middle, last, ?_, hmiddle, ?_, ?_⟩
  · rw [chain_eq_walk (by omega) helement]
    rfl
  · rw [chain_eq_walk (by omega) helement, hfirst]
  · rw [chain_eq_walk hfit hmiddle, hsecond]
  · rw [chain_eq_walk (by omega) helement, walk_add, hfirst, ok_bind, hsecond]

/-- On the last chain of the last leaf of a tree a walk of one step is continued by one of two
steps, up to the end of the chain. A step from the largest word on is refused, though the sum of the
words would be zero. -/
theorem chain_composes_within_bounds_lastChain :
    mostChains.publicSeed.length = mostChains.digest.size ∧
      (List.replicate 64 (7 : UInt8)).length = mostChains.digest.size ∧
      0 + 1 + 2 ≤ mostChains.params.w - 1 ∧
      (∃ middle last,
        mostChains.chain (List.replicate 64 7) 0 1 ⟨1, 2⟩ (2 ^ 32 - 1) 260 = .ok middle ∧
        middle.length = mostChains.digest.size ∧
        mostChains.chain middle 1 2 ⟨1, 2⟩ (2 ^ 32 - 1) 260 = .ok last ∧
        mostChains.chain (List.replicate 64 7) 0 3 ⟨1, 2⟩ (2 ^ 32 - 1) 260 = .ok last) ∧
      mostChains.chain (List.replicate 64 7) (2 ^ 32 - 1) 1 ⟨1, 2⟩ (2 ^ 32 - 1) 260 =
        .error (.chainOutOfRange (2 ^ 32 - 1) 1 4) := by
  obtain ⟨hcompose, hrange⟩ := chain_composes_within_bounds mostChains ⟨1, 2⟩ (2 ^ 32 - 1) 260
  have hfit : 0 + 1 + 2 ≤ mostChains.params.w - 1 := by decide
  obtain ⟨-, hwalks⟩ := hcompose List.length_replicate (List.replicate 64 7) 0 1 2
    List.length_replicate hfit
  exact ⟨List.length_replicate, List.length_replicate, hfit, hwalks,
    (hrange _ _ _ _ _ _).2 ⟨by decide, rfl, rfl, rfl⟩⟩

end MerkleSignature.Winternitz.OneTime
