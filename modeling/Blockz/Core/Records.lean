import Blockz.Types

/-!
# Keys, transactions, headers and blocks

The records that travel between nodes. A field that is a pointer in the source is an `Option`
here, `none` being the nil pointer: the gob decoder leaves such a field nil when the stream does
not carry it. Elements of a slice of pointers are never nil after decoding, so `Transactions` and
`Evidence` are plain lists.

The unexported fields (the cached hashes and `firstSeen`) are kept apart from the exported ones by
`Transaction.exported` and `Block.exported`: gob neither writes nor reads them.
-/

namespace Blockz

/-- `ecdsa.PublicKey` on the curve P-256, by its affine coordinates. -/
structure EcdsaPublicKey where
  x : ℕ
  y : ℕ
  deriving DecidableEq, Repr

/-- `ecdsa.PrivateKey`: the public key and the secret scalar. -/
structure EcdsaPrivateKey where
  publicKey : EcdsaPublicKey
  d : ℕ
  deriving DecidableEq, Repr

/-- `crypto.PublicKey`. -/
structure PublicKey where
  key : Option EcdsaPublicKey
  deriving DecidableEq, Repr

/-- `crypto.PrivateKey`. Only `GeneratePrivateKey` builds one, so its pointer is never nil. -/
structure PrivateKey where
  key : EcdsaPrivateKey
  deriving DecidableEq, Repr

/-- `PrivateKey.PublicKey`. -/
def PrivateKey.publicKey (k : PrivateKey) : PublicKey := ⟨some k.key.publicKey⟩

/-- `crypto.Signature`. -/
structure Signature where
  s : Option ℤ
  r : Option ℤ
  deriving DecidableEq, Repr

/-- `core.Header`. -/
structure Header where
  version : UInt32
  dataHash : Hash
  prevBlockHash : Hash
  stateRoot : Hash
  height : UInt32
  timestamp : Int64
  nonce : UInt64
  difficulty : UInt64
  coinbase : Address
  deriving DecidableEq, Repr

/-- `core.Transaction`. The fields `From` and `To` are called `fromKey` and `toAddr`. -/
structure Transaction where
  data : List UInt8
  toAddr : Address
  value : UInt64
  nonce : UInt64
  gasLimit : UInt64
  gasPrice : UInt64
  fromKey : PublicKey
  signature : Option Signature
  cachedHash : Hash := Hash.zero
  firstSeen : Int64 := 0
  deriving DecidableEq, Repr

/-- The exported fields, with the others at their zero value: what gob carries. -/
def Transaction.exported (tx : Transaction) : Transaction :=
  { tx with cachedHash := Hash.zero, firstSeen := 0 }

/-- `core.Block`. -/
structure Block where
  header : Option Header
  transactions : List Transaction
  evidence : List Header := []
  validator : PublicKey := ⟨none⟩
  signature : Option Signature := none
  cachedHash : Hash := Hash.zero
  deriving DecidableEq, Repr

/-- The exported fields of a block and of its transactions. -/
def Block.exported (b : Block) : Block :=
  { b with transactions := b.transactions.map Transaction.exported, cachedHash := Hash.zero }

@[simp] theorem Block.exported_exported (b : Block) : b.exported.exported = b.exported := by
  unfold Block.exported
  rw [List.map_map]
  rfl

end Blockz
