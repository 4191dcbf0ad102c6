import MerkleSignature.Hypertree.PrivateKey
import MerkleSignature.SingleTree.PrivateKey

/-!
# Summaries

One-line texts for logs. They show parameters, positions and indices and leave out all seeds.
-/

namespace MerkleSignature

/-- A name followed by named fields; `hidden` marks that further fields are left out. -/
def summaryOf (name : String) (fields : List (String × String)) (hidden : Bool) : String :=
  let shown := fields.map fun (field, value) => field ++ ": " ++ value
  let parts := if hidden then shown ++ [".."] else shown
  name ++ " \x7b " ++ ", ".intercalate parts ++ " \x7d"

/-- The digest in a summary. -/
def Digest.summary : Digest → String
  | sha256 => "Sha256"
  | sha512 => "Sha512"
  | shake128 => "Shake128"
  | shake256 => "Shake256"

/-- A position in a summary. -/
def TreePosition.summary (position : TreePosition) : String :=
  summaryOf "Subtree" [("layer", toString position.layer.toNat),
    ("tree", toString position.tree.toNat)] false

/-- The parameters of one-time keys in a summary. -/
def Winternitz.Params.summary (p : Winternitz.Params) : String :=
  summaryOf "WotsParams" [("n", toString p.n), ("w", toString p.w), ("log_w", toString p.digitBits),
    ("len1", toString p.messageLength), ("len2", toString p.checksumLength)] false

/-- The summary of a tree of one-time keys. -/
def KeyTree.summary (k : KeyTree) : String :=
  summaryOf "TreeHasher" [("digest", k.digest.summary), ("subtree", k.position.summary),
    ("height", toString k.height)] true

/-- The parameters of a single-tree key in a summary. -/
def SingleTree.Params.summary (p : SingleTree.Params) : String :=
  summaryOf "XmssParams" [("digest", p.digest.summary), ("height", toString p.height),
    ("wots", p.oneTime.summary)] false

/-- The summary of a single-tree private key. -/
def SingleTree.PrivateKey.summary (key : SingleTree.PrivateKey) : String :=
  summaryOf "XmssPrivateKey" [("params", key.params.summary),
    ("index", toString key.record.index)] true

/-- The parameters of a hypertree key in a summary. -/
def Hypertree.Params.summary (p : Hypertree.Params) : String :=
  summaryOf "XmssMtParams" [("digest", p.digest.summary), ("total_height", toString p.totalHeight),
    ("layers", toString p.layers), ("wots", p.oneTime.summary)] false

/-- The summary of a hypertree private key. -/
def Hypertree.PrivateKey.summary (key : Hypertree.PrivateKey) : String :=
  summaryOf "XmssMtPrivateKey" [("params", key.params.summary),
    ("index", toString key.record.index)] true

end MerkleSignature
