import MerkleSignature.Error
import MerkleSignature.Bytes

/-!
# Seeds

A key is made from three seeds of `n` bytes: two that stay secret and one that is published. They
are given or drawn from a random source.
-/

namespace MerkleSignature

/-- The secret seeds: one for the one-time keys, one for the randomness of messages. -/
structure SecretSeeds where
  secretSeed : Bytes
  prfKey : Bytes
  deriving DecidableEq

/-- Refuse seeds that do not have `n` bytes. -/
def checkSeeds (n : Nat) (seeds : SecretSeeds) (publicSeed : Bytes) : Except Error Unit := do
  checkLength "secret seed" seeds.secretSeed n
  checkLength "secret PRF key" seeds.prfKey n
  checkLength "public seed" publicSeed n

/-- A source of random bytes with states in `σ`. -/
structure RandomSource (σ : Type) where
  draw : (count : Nat) → σ → Bytes × σ
  length_draw : ∀ count state, (draw count state).1.length = count

/-- Draw the two secret seeds and the public seed, in this order. -/
def RandomSource.drawSeeds {σ : Type} (source : RandomSource σ) (n : Nat) (state : σ) :
    (SecretSeeds × Bytes) × σ :=
  let (secretSeed, state) := source.draw n state
  let (prfKey, state) := source.draw n state
  let (publicSeed, state) := source.draw n state
  ((⟨secretSeed, prfKey⟩, publicSeed), state)

end MerkleSignature
