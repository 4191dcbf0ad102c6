import MerkleSignature.Hypertree.Params

/-!
# Registered parameter sets

Some parameter sets have a registered identifier and name. All of them have Winternitz parameter
16. Single-tree and hypertree sets are registered separately, each numbered from 1.
-/

namespace MerkleSignature

/-- A registered parameter set; `height` is that of the whole tree or hypertree. -/
structure Registration where
  identifier : Nat
  name : String
  digest : Digest
  height : Nat
  layers : Nat := 1
  deriving DecidableEq

namespace Registration

/-- The Winternitz parameter of all registered sets. -/
def width : Winternitz.Width := .sixteen

/-- The number of chains of a one-time key. -/
def chains (r : Registration) : Nat := (Winternitz.Params.ofDigest r.digest width).length

/-- The single-tree sets. -/
def singleTrees : List Registration := [
  ⟨0x01, "XMSS-SHA2_10_256", .sha256, 10, 1⟩,
  ⟨0x02, "XMSS-SHA2_16_256", .sha256, 16, 1⟩,
  ⟨0x03, "XMSS-SHA2_20_256", .sha256, 20, 1⟩,
  ⟨0x04, "XMSS-SHA2_10_512", .sha512, 10, 1⟩,
  ⟨0x05, "XMSS-SHA2_16_512", .sha512, 16, 1⟩,
  ⟨0x06, "XMSS-SHA2_20_512", .sha512, 20, 1⟩,
  ⟨0x07, "XMSS-SHAKE_10_256", .shake128, 10, 1⟩,
  ⟨0x08, "XMSS-SHAKE_16_256", .shake128, 16, 1⟩,
  ⟨0x09, "XMSS-SHAKE_20_256", .shake128, 20, 1⟩,
  ⟨0x0a, "XMSS-SHAKE_10_512", .shake256, 10, 1⟩,
  ⟨0x0b, "XMSS-SHAKE_16_512", .shake256, 16, 1⟩,
  ⟨0x0c, "XMSS-SHAKE_20_512", .shake256, 20, 1⟩]

/-- The hypertree sets. -/
def hypertrees : List Registration := [
  ⟨0x01, "XMSSMT-SHA2_20/2_256", .sha256, 20, 2⟩,
  ⟨0x02, "XMSSMT-SHA2_20/4_256", .sha256, 20, 4⟩,
  ⟨0x03, "XMSSMT-SHA2_40/2_256", .sha256, 40, 2⟩,
  ⟨0x04, "XMSSMT-SHA2_40/4_256", .sha256, 40, 4⟩,
  ⟨0x05, "XMSSMT-SHA2_40/8_256", .sha256, 40, 8⟩,
  ⟨0x06, "XMSSMT-SHA2_60/3_256", .sha256, 60, 3⟩,
  ⟨0x07, "XMSSMT-SHA2_60/6_256", .sha256, 60, 6⟩,
  ⟨0x08, "XMSSMT-SHA2_60/12_256", .sha256, 60, 12⟩,
  ⟨0x09, "XMSSMT-SHA2_20/2_512", .sha512, 20, 2⟩,
  ⟨0x0a, "XMSSMT-SHA2_20/4_512", .sha512, 20, 4⟩,
  ⟨0x0b, "XMSSMT-SHA2_40/2_512", .sha512, 40, 2⟩,
  ⟨0x0c, "XMSSMT-SHA2_40/4_512", .sha512, 40, 4⟩,
  ⟨0x0d, "XMSSMT-SHA2_40/8_512", .sha512, 40, 8⟩,
  ⟨0x0e, "XMSSMT-SHA2_60/3_512", .sha512, 60, 3⟩,
  ⟨0x0f, "XMSSMT-SHA2_60/6_512", .sha512, 60, 6⟩,
  ⟨0x10, "XMSSMT-SHA2_60/12_512", .sha512, 60, 12⟩,
  ⟨0x11, "XMSSMT-SHAKE_20/2_256", .shake128, 20, 2⟩,
  ⟨0x12, "XMSSMT-SHAKE_20/4_256", .shake128, 20, 4⟩,
  ⟨0x13, "XMSSMT-SHAKE_40/2_256", .shake128, 40, 2⟩,
  ⟨0x14, "XMSSMT-SHAKE_40/4_256", .shake128, 40, 4⟩,
  ⟨0x15, "XMSSMT-SHAKE_40/8_256", .shake128, 40, 8⟩,
  ⟨0x16, "XMSSMT-SHAKE_60/3_256", .shake128, 60, 3⟩,
  ⟨0x17, "XMSSMT-SHAKE_60/6_256", .shake128, 60, 6⟩,
  ⟨0x18, "XMSSMT-SHAKE_60/12_256", .shake128, 60, 12⟩,
  ⟨0x19, "XMSSMT-SHAKE_20/2_512", .shake256, 20, 2⟩,
  ⟨0x1a, "XMSSMT-SHAKE_20/4_512", .shake256, 20, 4⟩,
  ⟨0x1b, "XMSSMT-SHAKE_40/2_512", .shake256, 40, 2⟩,
  ⟨0x1c, "XMSSMT-SHAKE_40/4_512", .shake256, 40, 4⟩,
  ⟨0x1d, "XMSSMT-SHAKE_40/8_512", .shake256, 40, 8⟩,
  ⟨0x1e, "XMSSMT-SHAKE_60/3_512", .shake256, 60, 3⟩,
  ⟨0x1f, "XMSSMT-SHAKE_60/6_512", .shake256, 60, 6⟩,
  ⟨0x20, "XMSSMT-SHAKE_60/12_512", .shake256, 60, 12⟩]

/-- Whether a set has this digest, Winternitz parameter, number of chains and shape. -/
def matchesSet (r : Registration) (digest : Digest) (w chains height layers : Nat) : Bool :=
  r.digest == digest && width.base == w && r.chains == chains && r.height == height &&
    r.layers == layers

/-- The registration of a single-tree set. -/
def singleTree? (digest : Digest) (w chains height : Nat) : Option Registration :=
  singleTrees.find? fun r => r.matchesSet digest w chains height 1

/-- The registration of a hypertree set. -/
def hypertree? (digest : Digest) (w chains height layers : Nat) : Option Registration :=
  hypertrees.find? fun r => r.matchesSet digest w chains height layers

end Registration

namespace SingleTree.Params

/-- The parameter set registered under an identifier. -/
def ofIdentifier (identifier : Nat) : Except Error Params :=
  match Registration.singleTrees.find? (·.identifier == identifier) with
  | some r => new r.digest r.height Registration.width.base
  | none => .error (.unknownIdentifier identifier)

/-- The registration of a parameter set. -/
def registration? (p : Params) : Option Registration :=
  Registration.singleTree? p.digest p.oneTime.w p.oneTime.length p.height

end SingleTree.Params

namespace Hypertree.Params

/-- The parameter set registered under an identifier. -/
def ofIdentifier (identifier : Nat) : Except Error Params :=
  match Registration.hypertrees.find? (·.identifier == identifier) with
  | some r => new r.digest r.height r.layers Registration.width.base
  | none => .error (.unknownIdentifier identifier)

/-- The registration of a parameter set. -/
def registration? (p : Params) : Option Registration :=
  Registration.hypertree? p.digest p.oneTime.w p.oneTime.length p.totalHeight p.layers

end Hypertree.Params

end MerkleSignature
