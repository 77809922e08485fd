import Blockz.Chain.Step
import Blockz.Consensus.PoS

/-!
# What the signatures cover

`Transaction.Sign` hands `Data` to `crypto/ecdsa` as it is, and `Block.Sign` the gob encoding of
the header. The package uses the leftmost 32 bytes. So a transaction is bound to the first 32 bytes
of its code and to nothing else; and a block is bound to the gob descriptor, which is the same for
every header.

* `Transaction.verify_altered_iff` — which changes of a signed transaction `Verify` notices.
* `Block.verify_replaced_iff` — which replaced blocks `Verify` notices.
* `Blockchain.proposer_authentic_iff` — under proof of stake, when the signer is the proposer.
-/

namespace Blockz

open Effect

variable {P : Primitives}

/-! ### Transactions -/

/-- What `Verify` answers on a transaction that carries the key and the signature of a signed
one. -/
theorem Transaction.verify_altered (hP : P.IdealSignature) {tx₀ tx tx' : Transaction}
    {key : PrivateKey} {rand : ℕ} (hsign : tx₀.sign P key rand = .ok tx)
    (hkey : tx'.fromKey = tx.fromKey) (hsig : tx'.signature = tx.signature) :
    tx'.verify P = Outcome.require
      (decide (Primitives.truncate tx'.data = Primitives.truncate tx.data) = true)
      .transactionBadSignature := by
  obtain ⟨sig, hraw, htx⟩ := Outcome.bind_eq_ok.mp hsign
  obtain rfl := Outcome.ok.inj htx
  unfold Transaction.verify
  rw [hsig, hkey]
  change (sig.verify P key.publicKey tx'.data >>= _) = _
  rw [Signature.verify_of_sign hP hraw, Outcome.bind_ok]

/-- **What a signed transaction is bound to.** With the key and the signature of a signed
transaction, another one is refused exactly when it differs in the first 32 bytes of `Data`. -/
theorem Transaction.verify_altered_iff (hP : P.IdealSignature) {tx₀ tx tx' : Transaction}
    {key : PrivateKey} {rand : ℕ} (hsign : tx₀.sign P key rand = .ok tx)
    (hkey : tx'.fromKey = tx.fromKey) (hsig : tx'.signature = tx.signature) :
    (∃ e, tx'.verify P = .err e) ↔ tx'.data.take 32 ≠ tx.data.take 32 := by
  rw [Transaction.verify_altered hP hsign hkey hsig]
  constructor
  · rintro ⟨e, he⟩ heq
    exact (Outcome.require_eq_err.mp he).1 (decide_eq_true heq)
  · intro hne
    refine ⟨_, Outcome.require_eq_err.mpr ⟨fun h => hne ?_, rfl⟩⟩
    exact of_decide_eq_true h

/-- The criterion for a transfer of 9 that is turned into one of 90. -/
theorem Transaction.verify_altered_iff_sampleTransfer :
    (∃ e, (sampleTransfer 90 0).verify .sample = .err e) ↔
      (sampleTransfer 90 0).data.take 32 ≠ (sampleTransfer 9 0).data.take 32 := by
  have hsign : (sampleTransfer 9 0).sign .sample sampleKey 0 = .ok (sampleTransfer 9 0) := rfl
  exact Transaction.verify_altered_iff sample_idealSignature hsign rfl rfl

/-- **The value is not signed.** A signed transfer of 9 becomes a verified transfer of 90. -/
theorem Transaction.verify_of_altered_value :
    (sampleTransfer 9 0).sign .sample sampleKey 0 = .ok (sampleTransfer 9 0) ∧
      (sampleTransfer 90 0).fromKey = (sampleTransfer 9 0).fromKey ∧
      (sampleTransfer 90 0).signature = (sampleTransfer 9 0).signature ∧
      (sampleTransfer 90 0).value ≠ (sampleTransfer 9 0).value ∧
      (sampleTransfer 90 0).verify .sample = .ok () := by
  decide +kernel

/-! ### Blocks -/

/-- A signed block with another header, other transactions and other evidence. -/
def Block.replaced (b : Block) (h : Header) (txx : List Transaction) (evidence : List Header) :
    Block :=
  { b with header := some h, transactions := txx, evidence := evidence }

/-- **What a signed block is bound to.** With the validator and the signature of a signed block and
a fitting data hash, any other header is accepted, unless one of the transactions fails its own
check. -/
theorem Block.verify_replaced_iff (hP : P.IdealSignature) (hgob : P.ConstantDescriptor)
    {b₀ b : Block} {key : PrivateKey} {rand : ℕ} (hsign : b₀.sign P key rand = .ok b)
    (h : Header) (txx : List Transaction) (evidence : List Header)
    (hdata : calculateDataHash P txx evidence = .ok h.dataHash) :
    (∃ e, (b.replaced h txx evidence).verify P = .err e) ↔
      ∃ pre tx post e, txx = pre ++ tx :: post ∧ (∀ t ∈ pre, t.verify P = .ok ()) ∧
        tx.verify P = .err e := by
  obtain ⟨h₀, -, hsign⟩ := Outcome.bind_eq_ok.mp hsign
  obtain ⟨sig, hraw, hb⟩ := Outcome.bind_eq_ok.mp hsign
  obtain rfl := Outcome.ok.inj hb
  -- the descriptor fills the 32 bytes, so the signature of one header fits every other
  have hsame : sig.verify P key.publicKey (h.bytes P) = .ok true := by
    rw [Signature.verify_of_sign hP hraw]
    exact congrArg Outcome.ok (decide_eq_true (hgob.truncate_eq h h₀))
  have hverify : (Block.replaced { b₀ with validator := key.publicKey, signature := some sig }
      h txx evidence).verify P = Outcome.checkAll (Transaction.verify P) txx := by
    change (sig.verify P key.publicKey (h.bytes P) >>= _) = _
    rw [hsame, Outcome.bind_ok]
    change (Outcome.checkAll (Transaction.verify P) txx >>= fun _ =>
      calculateDataHash P txx evidence >>= _) = _
    rw [hdata]
    cases Outcome.checkAll (Transaction.verify P) txx with
    | ok u => exact Outcome.require_eq_ok.mpr rfl
    | err e => rfl
    | panic p => rfl
    | outOfFuel => rfl
  rw [hverify]
  constructor
  · rintro ⟨e, he⟩
    obtain ⟨pre, tx, post, hsplit, hpre, htx⟩ := Outcome.checkAll_eq_err.mp he
    exact ⟨pre, tx, post, e, hsplit, hpre, htx⟩
  · rintro ⟨pre, tx, post, e, hsplit, hpre, htx⟩
    exact ⟨e, Outcome.checkAll_eq_err.mpr ⟨pre, tx, post, hsplit, hpre, htx⟩⟩

/-- A signed block, and the header that pays the reward to somebody else. -/
def authenticBlock : Block := sampleBlock sampleGenesis [] (sampleAddress 1)

def forgedHeader : Header := sampleHeader sampleGenesis [] (sampleAddress 3)

theorem sign_authenticBlock :
    authenticBlock.sign .sample sampleKey 0 = .ok authenticBlock := rfl

/-- The criterion for that header. -/
theorem Block.verify_replaced_iff_forgedHeader :
    (∃ e, (authenticBlock.replaced forgedHeader [] []).verify .sample = .err e) ↔
      ∃ pre tx post e, [] = pre ++ tx :: post ∧
        (∀ t ∈ pre, Transaction.verify .sample t = .ok ()) ∧
        Transaction.verify .sample tx = .err e := by
  have hdata : calculateDataHash .sample [] [] = .ok forgedHeader.dataHash := by decide +kernel
  exact Block.verify_replaced_iff sample_idealSignature sample_constantDescriptor
    sign_authenticBlock forgedHeader [] [] hdata

/-- **The header is not signed.** The coinbase of a signed block is changed, and the block still
verifies. -/
theorem Block.verify_of_forgedHeader :
    authenticBlock.sign .sample sampleKey 0 = .ok authenticBlock ∧
      authenticBlock.header ≠ some forgedHeader ∧
      (authenticBlock.replaced forgedHeader [] []).verify .sample = .ok () := by
  decide +kernel

/-! ### Proposers -/

namespace Blockchain

variable {S : Type}

/-- An accepted block names the selected proposer as its coinbase. -/
theorem Valid.selectProposer {bc : Blockchain PoSEngine S} {b : Block} {h : Header}
    {c' : Option PoSEngine} {pos : PoSEngine} (valid : Valid P bc b h c')
    (hengine : bc.consensus = some pos) : pos.selectProposer h.height = .ok h.coinbase := by
  obtain ⟨pos', -, hverify⟩ := valid.consensus_of_some hengine
  exact (PoSEngine.verifyHeader_eq_ok hverify).1

/-- **When the signer is the proposer.** Validation never compares the key that signed a block with
the coinbase. An accepted block is signed by the selected proposer exactly when the address of its
validator key is the one that the engine selects. -/
theorem proposer_authentic_iff {bc bc' : Blockchain PoSEngine S} {b : Block} {h : Header}
    {pos : PoSEngine} (hengine : bc.consensus = some pos) (hheader : b.header = some h)
    (hok : validateBlockLocked P b bc = (.ok (), bc')) :
    (b.validator.address P = .ok h.coinbase ∧ pos.selectProposer h.height = .ok h.coinbase) ↔
      b.validator.address P = pos.selectProposer h.height := by
  obtain ⟨h', valid, -⟩ := validateBlockLocked_eq_ok hok
  obtain rfl : h = h' := Option.some.inj (hheader.symm.trans valid.header)
  have hselect := valid.selectProposer hengine
  rw [hselect]
  exact ⟨fun hboth => hboth.1, fun heq => ⟨heq, rfl⟩⟩

/-- An engine whose only validator is not the holder of `sampleKey`. -/
def stakedEngine : PoSEngine := PoSEngine.newPoSEngine.addValidator (sampleAddress 1) 10

def stakedChain : Blockchain PoSEngine MemoryStore where
  store := sampleChain.store
  headers := sampleChain.headers
  consensus := some stakedEngine
  worldState := sampleChain.worldState
  totalDifficulty := sampleChain.totalDifficulty

theorem validate_stakedChain :
    (validateBlockLocked .sample authenticBlock stakedChain).1 = .ok () := by
  decide +kernel

def authenticHeader : Header := sampleHeader sampleGenesis [] (sampleAddress 1)

/-- The criterion for the block that `sampleKey` has signed in that validator's name. -/
theorem proposer_authentic_iff_stakedChain :
    (authenticBlock.validator.address .sample = .ok authenticHeader.coinbase ∧
        stakedEngine.selectProposer authenticHeader.height = .ok authenticHeader.coinbase) ↔
      authenticBlock.validator.address .sample =
        stakedEngine.selectProposer authenticHeader.height := by
  have hok : validateBlockLocked .sample authenticBlock stakedChain =
      (.ok (), (validateBlockLocked .sample authenticBlock stakedChain).2) :=
    Act.eq_mk_of_fst validate_stakedChain
  have hengine : stakedChain.consensus = some stakedEngine := rfl
  have hheader : authenticBlock.header = some authenticHeader := rfl
  exact proposer_authentic_iff hengine hheader hok

/-- **Anybody can sign for the proposer.** The block is accepted, and the address of the key that
signed it is not the coinbase. -/
theorem validate_of_foreign_signer :
    (validateBlockLocked .sample authenticBlock stakedChain).1 = .ok () ∧
      authenticBlock.header.map Header.coinbase = some (sampleAddress 1) ∧
      authenticBlock.validator.address .sample ≠ .ok (sampleAddress 1) := by
  decide +kernel

end Blockchain

end Blockz
