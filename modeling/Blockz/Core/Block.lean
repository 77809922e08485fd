import Blockz.Crypto.Keypair

/-!
# Transactions and blocks

`core/hasher.go`, `core/transaction.go` and `core/block.go`. The hash of a header is the SHA-256
hash of its gob encoding; the hash of a transaction is that of its `Data` alone, and `Data` alone
is also what `Transaction.Sign` signs. A block signs the gob encoding of its header.

`Transaction.Hash` and `Block.Hash` keep the first value they compute in an unexported field. The
field is the `cachedHash` of the record, and the two functions return the cached value whenever it
is not zero.
-/

namespace Blockz

open Effect

variable (P : Primitives)

/-- `Header.Bytes`. -/
def Header.bytes (h : Header) : List UInt8 := P.gobHeader h

/-- `BlockHasher.Hash`. -/
def BlockHasher.hash (h : Header) : Hash := P.sha256 (h.bytes P)

/-- `TxHasher.Hash`. -/
def TxHasher.hash (tx : Transaction) : Hash := P.sha256 tx.data

/-! ### Transactions -/

namespace Transaction

/-- `Transaction.Hash`. -/
def hash (tx : Transaction) : Hash :=
  if tx.cachedHash.isZero then TxHasher.hash P tx else tx.cachedHash

/-- The transaction as it is after a call of `Transaction.Hash`. -/
def cacheHash (tx : Transaction) : Transaction := { tx with cachedHash := tx.hash P }

/-- `Transaction.Sign`. -/
def sign (tx : Transaction) (privKey : PrivateKey) (rand : ℕ) : Outcome Err Transaction := do
  let sig ← privKey.sign P tx.data rand
  pure { tx with fromKey := privKey.publicKey, signature := some sig }

/-- `Transaction.Verify`. -/
def verify (tx : Transaction) : Outcome Err Unit :=
  match tx.signature with
  | none => .err .transactionUnsigned
  | some sig => do
    let valid ← sig.verify P tx.fromKey tx.data
    Outcome.require (valid = true) .transactionBadSignature

/-- `tx.Encode(NewGobTxEncoder(buf))`, for the transactions of a list one after the other into one
buffer. -/
def encodeAll : List Transaction → Outcome Err (List UInt8)
  | [] => .ok []
  | tx :: txx => do
    let bytes ← P.gobTransaction tx.exported
    let rest ← encodeAll txx
    pure (bytes ++ rest)

end Transaction

/-! ### Blocks -/

/-- `CalculateDataHash`. -/
def calculateDataHash (txx : List Transaction) (evidence : List Header) : Outcome Err Hash := do
  let bytes ← Transaction.encodeAll P txx
  pure (P.sha256 (bytes ++ evidence.flatMap (Header.bytes P)))

/-- `NewBlock`. -/
def newBlock (h : Header) (txx : List Transaction) : Block where
  header := some h
  transactions := txx

/-- `NewBlockFromPrevHeader`; `now` is what `time.Now().UnixNano()` yields. The fields that the
source does not set have their zero value. -/
def newBlockFromPrevHeader (prevHeader : Header) (txx : List Transaction) (now : Int64) :
    Outcome Err Block := do
  let dataHash ← calculateDataHash P txx []
  pure (newBlock
    { version := 1
      dataHash := dataHash
      prevBlockHash := BlockHasher.hash P prevHeader
      stateRoot := Hash.zero
      height := prevHeader.height + 1
      timestamp := now
      nonce := 0
      difficulty := 0
      coinbase := Address.zero } txx)

namespace Block

/-- `Block.Hash(BlockHasher{})`, `h` being the header that the block points to. -/
def hash (b : Block) (h : Header) : Hash :=
  if b.cachedHash.isZero then BlockHasher.hash P h else b.cachedHash

/-- `Block.Sign`. -/
def sign (b : Block) (privKey : PrivateKey) (rand : ℕ) : Outcome Err Block := do
  let h ← Outcome.deref b.header
  let sig ← privKey.sign P (h.bytes P) rand
  pure { b with validator := privKey.publicKey, signature := some sig }

/-- `Block.Verify`. -/
def verify (b : Block) : Outcome Err Unit :=
  match b.signature with
  | none => .err .blockUnsigned
  | some sig => do
    let h ← Outcome.deref b.header
    let valid ← sig.verify P b.validator (h.bytes P)
    Outcome.require (valid = true) .blockBadSignature
    Outcome.checkAll (Transaction.verify P) b.transactions
    let dataHash ← calculateDataHash P b.transactions b.evidence
    Outcome.require (dataHash = h.dataHash) (.invalidDataHash (b.hash P h))

/-- The cached hash is unset, or it is the hash of the header. -/
def CacheCorrect (b : Block) : Prop :=
  ∀ h, b.header = some h → b.cachedHash = Hash.zero ∨ b.cachedHash = BlockHasher.hash P h

variable {P}

theorem CacheCorrect.hash_eq {b : Block} (hb : b.CacheCorrect P) {h : Header}
    (hh : b.header = some h) : b.hash P h = BlockHasher.hash P h := by
  unfold Block.hash
  rcases hb h hh with hzero | heq
  · rw [hzero]
    rfl
  · rw [heq]
    split <;> rfl

end Block

variable {P}

/-- A transaction that passes `Verify` carries a signature and a key. -/
theorem Transaction.verify_eq_ok {tx : Transaction} (h : tx.verify P = .ok ()) :
    ∃ sig key, tx.signature = some sig ∧ tx.fromKey.key = some key ∧
      sig.verify P tx.fromKey tx.data = .ok true := by
  unfold Transaction.verify at h
  cases hsig : tx.signature with
  | none => simp [hsig] at h
  | some sig =>
    simp only [hsig] at h
    obtain ⟨valid, hver, hreq⟩ := Outcome.bind_eq_ok.mp h
    obtain rfl : valid = true := Outcome.require_eq_ok.mp hreq
    have hver' := hver
    unfold Signature.verify at hver'
    obtain ⟨key, hkey, -⟩ := Outcome.bind_eq_ok.mp hver'
    exact ⟨sig, key, rfl, Outcome.deref_eq_ok.mp hkey, hver⟩

/-- What `Block.Verify` has checked when it succeeds. -/
theorem Block.verify_eq_ok {b : Block} (h : b.verify P = .ok ()) :
    ∃ sig hd, b.signature = some sig ∧ b.header = some hd ∧
      sig.verify P b.validator (hd.bytes P) = .ok true ∧
      (∀ tx ∈ b.transactions, tx.verify P = .ok ()) ∧
      calculateDataHash P b.transactions b.evidence = .ok hd.dataHash := by
  unfold Block.verify at h
  cases hsig : b.signature with
  | none => simp [hsig] at h
  | some sig =>
    simp only [hsig] at h
    obtain ⟨hd, hhd, h⟩ := Outcome.bind_eq_ok.mp h
    obtain ⟨valid, hver, h⟩ := Outcome.bind_eq_ok.mp h
    obtain ⟨_, hreq, h⟩ := Outcome.bind_eq_ok.mp h
    obtain ⟨_, htx, h⟩ := Outcome.bind_eq_ok.mp h
    obtain ⟨dataHash, hdata, heq⟩ := Outcome.bind_eq_ok.mp h
    obtain rfl : valid = true := Outcome.require_eq_ok.mp hreq
    obtain rfl : dataHash = hd.dataHash := Outcome.require_eq_ok.mp heq
    exact ⟨sig, hd, rfl, Outcome.deref_eq_ok.mp hhd, hver, Outcome.checkAll_eq_ok.mp htx, hdata⟩

/-- A block that passes each of these checks is verified. -/
theorem Block.verify_of_checks {b : Block} {sig : Signature} {h : Header}
    (hsig : b.signature = some sig) (hh : b.header = some h)
    (hver : sig.verify P b.validator (h.bytes P) = .ok true)
    (htx : ∀ tx ∈ b.transactions, tx.verify P = .ok ())
    (hdata : calculateDataHash P b.transactions b.evidence = .ok h.dataHash) :
    b.verify P = .ok () := by
  unfold Block.verify
  simp only [hsig, hh, Outcome.deref_some, Outcome.bind_ok, hver, hdata,
    Outcome.require_bind_eq_ok, Outcome.checkAll_eq_ok.mpr htx, Outcome.require_eq_ok, and_self]

/-- Calling `Hash` again returns the same hash. -/
theorem Transaction.hash_cacheHash (tx : Transaction) : (tx.cacheHash P).hash P = tx.hash P := by
  show (if (tx.hash P).isZero then P.sha256 tx.data else tx.hash P) = tx.hash P
  unfold Transaction.hash
  by_cases hzero : tx.cachedHash.isZero = true
  · rw [if_pos hzero]
    exact ite_self _
  · rw [if_neg hzero, if_neg hzero]

/-! ### Exported fields -/

theorem Transaction.encodeAll_exported (txx : List Transaction) :
    Transaction.encodeAll P (txx.map Transaction.exported) = Transaction.encodeAll P txx := by
  induction txx with
  | nil => rfl
  | cons tx txx ih =>
    rw [List.map_cons, Transaction.encodeAll, Transaction.encodeAll, ih]
    rfl

theorem calculateDataHash_exported (txx : List Transaction) (evidence : List Header) :
    calculateDataHash P (txx.map Transaction.exported) evidence =
      calculateDataHash P txx evidence := by
  unfold calculateDataHash
  rw [Transaction.encodeAll_exported]

/-- Whether a block verifies is a matter of its exported fields. The cached hash shows only in the
text of the last error. -/
theorem Block.verify_exported {b : Block} :
    b.exported.verify P = .ok () ↔ b.verify P = .ok () := by
  have htx : Outcome.checkAll (Transaction.verify P) (b.transactions.map Transaction.exported) =
      .ok () ↔ Outcome.checkAll (Transaction.verify P) b.transactions = .ok () := by
    rw [Outcome.checkAll_eq_ok, Outcome.checkAll_eq_ok, List.forall_mem_map]
    rfl
  unfold Block.verify Block.exported
  cases b.signature with
  | none => simp
  | some sig =>
    simp only [Outcome.bind_eq_ok, Outcome.require_eq_ok, calculateDataHash_exported, htx]

/-- Blocks with the same exported fields verify alike. -/
theorem Block.verify_congr {b b' : Block} (hexp : b'.exported = b.exported) :
    b'.verify P = .ok () ↔ b.verify P = .ok () := by
  rw [← Block.verify_exported, hexp, Block.verify_exported]

end Blockz
