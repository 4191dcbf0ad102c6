import MerkleSignature.Registry
import MerkleSignature.Summary
import MerkleSignature.Proofs.Hypertree.Forgery
import MerkleSignature.Proofs.Scheme
import MerkleSignature.Proofs.SingleTree.Binding
import MerkleSignature.Proofs.Storage
import MerkleSignature.Proofs.SignatureLayout
import MerkleSignature.Proofs.SignatureFormat
import MerkleSignature.Proofs.IndexDiscipline
import MerkleSignature.Proofs.OneLayer
import MerkleSignature.Proofs.AddressSeparation
import MerkleSignature.Proofs.LockedKey
import MerkleSignature.Proofs.Winternitz.Forgery
import MerkleSignature.Proofs.Winternitz.Incomparable
import MerkleSignature.Proofs.KeyTree.Subtrees
import MerkleSignature.Proofs.LTree.Levels
import MerkleSignature.Proofs.Digest.Framing
import MerkleSignature.Proofs.Winternitz.Chains
import MerkleSignature.Proofs.Verification
import MerkleSignature.Proofs.Bytes.Bits
import MerkleSignature.Proofs.Bytes.Words
