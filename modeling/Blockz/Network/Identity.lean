import Blockz.Chain.Replay
import Blockz.Network.Node

/-!
# What a transaction is known by

`TxHasher` hashes the `Data` of a transaction and nothing else. The hash is the key of the pool and
of the index of the store, so two transactions that agree in `Data` are one to them: two plain
transfers, to whomever and of whatever amount, have the empty `Data` in common.

`Transaction.unsigned` is what a transaction asks for: all its fields but the signature, the cached
hash and the time of arrival.

* `mem_pool_processTransaction_iff` — a transaction is in the pool after `ProcessTransaction`
  exactly if no different one with the same `Data` was there before.
* `found_iff` — the store returns every transaction of the accepted blocks under its hash exactly if
  no two different ones agree in `Data`.
* `identity_iff` — both, and the hashes themselves.
-/

namespace Blockz

open Effect
open Blockchain (acceptedTransactions)

namespace Transaction

/-- What the transaction asks for and of whom. -/
def unsigned (tx : Transaction) : Transaction :=
  { tx with signature := none, cachedHash := Hash.zero, firstSeen := 0 }

/-- The cached hash is unset, or it is the hash of the transaction. -/
def CacheCorrect (P : Primitives) (tx : Transaction) : Prop :=
  tx.cachedHash = Hash.zero ∨ tx.cachedHash = TxHasher.hash P tx

variable {P : Primitives} {tx tx' : Transaction}

theorem CacheCorrect.hash_eq (htx : tx.CacheCorrect P) : tx.hash P = TxHasher.hash P tx := by
  unfold Transaction.hash
  rcases htx with hzero | heq
  · rw [hzero]
    rfl
  · rw [heq]
    exact ite_self _

theorem CacheCorrect.cacheHash (htx : tx.CacheCorrect P) : (tx.cacheHash P).CacheCorrect P :=
  Or.inr htx.hash_eq

theorem data_eq_of_unsigned (heq : tx.unsigned = tx'.unsigned) : tx.data = tx'.data := by
  show tx.unsigned.data = tx'.unsigned.data
  rw [heq]

/-- Equal hashes are equal `Data`. -/
theorem hash_eq_iff {s : Set (List UInt8)} (hsha : Set.InjOn P.sha256 s) (htx : tx.CacheCorrect P)
    (htx' : tx'.CacheCorrect P) (hmem : tx.data ∈ s) (hmem' : tx'.data ∈ s) :
    tx.hash P = tx'.hash P ↔ tx.data = tx'.data := by
  rw [htx.hash_eq, htx'.hash_eq]
  exact hsha.eq_iff hmem hmem'

end Transaction

/-- The `Data` of the transactions, as a set of byte strings. -/
def dataOf (txx : List Transaction) : Set (List UInt8) := {data | ∃ tx ∈ txx, data = tx.data}

theorem data_mem_dataOf {txx : List Transaction} {tx : Transaction} (hmem : tx ∈ txx) :
    tx.data ∈ dataOf txx := ⟨tx, hmem, rfl⟩

/-! ### In the pool -/

section Pool

variable {E S : Type} {P : Primitives}

/-- The pool after a call of `ProcessTransaction` that returns no error. -/
theorem processTransaction_all {n n' : Node E S} (hpool : n.memPool.Sound P) {tx : Transaction}
    {now : Int64} (hcall : Node.processTransaction P tx now n = (.ok (), n')) :
    n'.memPool.all.txx = if n.memPool.contains (tx.hash P) then n.memPool.all.txx
      else n.memPool.kept ++ [(tx.seenAt P now).cacheHash P] := by
  unfold Node.processTransaction at hcall
  rw [Act.get_bind_apply] at hcall
  by_cases hknown : n.memPool.contains (tx.hash P)
  · rw [if_pos hknown] at hcall
    rw [if_pos hknown, ← (Prod.mk.inj hcall).2]
  · rw [if_neg hknown] at hcall
    obtain ⟨_, -, hcall⟩ := Act.lift_bind_eq_ok.mp hcall
    obtain ⟨p', hadd, -, -, hall, -⟩ := hpool.add_apply (tx.seenAt P now)
    unfold Node.launch Node.onPool at hcall
    rw [Act.modify_bind_apply, Act.on_apply] at hcall
    simp only [hadd] at hcall
    rw [if_neg hknown, ← (Prod.mk.inj hcall).2]
    refine hall.trans (Window.enter_of_notMem ?_)
    rw [Transaction.hash_cacheHash, Transaction.hash_seenAt]
    exact hpool.notMem_kept hknown

/-- A verified transaction is no error. -/
theorem processTransaction_of_verified {n : Node E S} (hpool : n.memPool.Sound P) {tx : Transaction}
    (hverified : tx.verify P = .ok ()) (now : Int64) :
    (Node.processTransaction P tx now n).1 = .ok () := by
  have hstep := Node.processTransaction_step hpool tx now
  generalize Node.processTransaction P tx now n = call at hstep
  obtain ⟨o, n'⟩ := call
  cases hstep with
  | known _ => rfl
  | refused _ verify stop => exact absurd (verify.symm.trans hverified) (stop ())
  | admitted _ _ _ => rfl

/-- **A transaction is in the pool after `ProcessTransaction`**, itself and not another one under
its hash, exactly if the pool had no different one with its `Data`. -/
theorem mem_pool_processTransaction_iff {n n' : Node E S} (hpool : n.memPool.Sound P)
    {tx : Transaction} {now : Int64}
    (hcaches : ∀ tx' ∈ tx :: n.memPool.all.txx, tx'.CacheCorrect P)
    (hsha : Set.InjOn P.sha256 (dataOf (tx :: n.memPool.all.txx)))
    (hcall : Node.processTransaction P tx now n = (.ok (), n')) :
    (∃ tx' ∈ n'.memPool.all.txx, tx'.unsigned = tx.unsigned) ↔
      ∀ tx' ∈ n.memPool.all.txx, tx'.data = tx.data → tx'.unsigned = tx.unsigned := by
  have hhash : ∀ tx' ∈ n.memPool.all.txx, tx'.hash P = tx.hash P ↔ tx'.data = tx.data := by
    intro tx' hmem
    exact Transaction.hash_eq_iff hsha (hcaches tx' (List.mem_cons_of_mem _ hmem))
      (hcaches tx List.mem_cons_self) (data_mem_dataOf (List.mem_cons_of_mem _ hmem))
      (data_mem_dataOf List.mem_cons_self)
  rw [processTransaction_all hpool hcall]
  by_cases hknown : n.memPool.contains (tx.hash P)
  · rw [if_pos hknown]
    constructor
    · -- what has the `Data` has the hash, and the pool has one transaction for each hash
      rintro ⟨tx', hmem, hsame⟩ tx'' hmem'' hdata
      have heq : tx''.hash P = tx'.hash P :=
        ((hhash tx'' hmem'').mpr hdata).trans
          ((hhash tx' hmem).mpr (Transaction.data_eq_of_unsigned hsame)).symm
      rw [List.inj_on_of_nodup_map hpool.all.nodup hmem'' hmem heq]
      exact hsame
    · intro hall
      obtain ⟨tx', hmem, heq⟩ := List.mem_map.mp (hpool.all.mem_lookup.mp hknown)
      exact ⟨tx', hmem, hall tx' hmem ((hhash tx' hmem).mp heq)⟩
  · rw [if_neg hknown]
    refine iff_of_true ⟨_, List.mem_append_right _ List.mem_cons_self, rfl⟩ ?_
    intro tx' hmem hdata
    exact absurd (hpool.all.mem_lookup.mpr
      (List.mem_map.mpr ⟨tx', hmem, (hhash tx' hmem).mpr hdata⟩)) hknown

end Pool

/-! ### In the store -/

section Store

variable {E : Type} {P : Primitives} [ConsensusEngine P E]

/-- A block that is accepted goes over the index, one that is not leaves it. -/
theorem lookup_txByHash_of_call {bc bc' : Blockchain E MemoryStore} {b : Block}
    {o : Outcome Err Unit} (hcall : Blockchain.Called P bc b o bc') (hash : Hash) :
    bc'.store.txByHash.lookup hash =
      (MemoryStore.lastWith P (if o = .ok () then b.transactions else []) hash).or
        (bc.store.txByHash.lookup hash) := by
  obtain ⟨fuel, hadd⟩ := hcall
  cases Blockchain.AddStep.of_call hadd with
  | invalid _ stop =>
    rw [if_neg (stop ())]
    rfl
  | aborted _ _ stop =>
    rw [if_neg (stop ())]
    rfl
  | crashed _ _ _ => rfl
  | appended valid _ _ put =>
    rw [MemoryStore.put_apply valid.header] at put
    obtain ⟨rfl, rfl⟩ := Prod.mk.inj put
    rw [if_pos rfl]
    exact MemoryStore.lookup_txByHash_insertBlock _ _ _ _

/-- The index after a run: what the run has put there, and before that what was there. -/
theorem lookup_txByHash_of_run {bc₀ bc : Blockchain E MemoryStore}
    {es : List (Block × Outcome Err Unit)} (run : History (Blockchain.Called P) bc₀ es bc)
    (hash : Hash) :
    bc.store.txByHash.lookup hash =
      (MemoryStore.lastWith P (acceptedTransactions es) hash).or
        (bc₀.store.txByHash.lookup hash) := by
  refine run.recorded (fun es bc => bc.store.txByHash.lookup hash =
    (MemoryStore.lastWith P (acceptedTransactions es) hash).or
      (bc₀.store.txByHash.lookup hash)) rfl ?_
  intro es bc b o bc' _ ih hcall
  rw [lookup_txByHash_of_call hcall, ih, Blockchain.acceptedTransactions_concat,
    MemoryStore.lastWith_append, Option.or_assoc]

/-- What `GetTxByHash` returns after a run. -/
theorem getTxByHash_of_run {bc₀ bc : Blockchain E MemoryStore}
    {es : List (Block × Outcome Err Unit)} (run : History (Blockchain.Called P) bc₀ es bc)
    {hash : Hash} {tx : Transaction} :
    bc.getTxByHash P hash = .ok tx ↔
      (MemoryStore.lastWith P (acceptedTransactions es) hash).or
        (bc₀.store.txByHash.lookup hash) = some tx := by
  rw [← lookup_txByHash_of_run run]
  exact MemoryStore.find_eq_ok

/-- **Every transaction of the accepted blocks is found under its hash**, itself and not another
one, exactly if no two different ones agree in `Data`. -/
theorem found_iff {bc₀ bc : Blockchain E MemoryStore} {es : List (Block × Outcome Err Unit)}
    (run : History (Blockchain.Called P) bc₀ es bc)
    (hcaches : ∀ tx ∈ acceptedTransactions es, tx.CacheCorrect P)
    (hsha : Set.InjOn P.sha256 (dataOf (acceptedTransactions es))) :
    (∀ tx ∈ acceptedTransactions es, ∃ tx', bc.getTxByHash P (tx.hash P) = .ok tx' ∧
        tx'.unsigned = tx.unsigned) ↔
      ∀ tx ∈ acceptedTransactions es, ∀ tx' ∈ acceptedTransactions es, tx.data = tx'.data →
        tx.unsigned = tx'.unsigned := by
  constructor
  · intro hfound tx hmem tx' hmem' hdata
    have hhash : tx.hash P = tx'.hash P :=
      (Transaction.hash_eq_iff hsha (hcaches tx hmem) (hcaches tx' hmem') (data_mem_dataOf hmem)
        (data_mem_dataOf hmem')).mpr hdata
    obtain ⟨one, hone, hsame⟩ := hfound tx hmem
    obtain ⟨other, hother, hsame'⟩ := hfound tx' hmem'
    rw [hhash, hother] at hone
    rw [← hsame, ← hsame', Outcome.ok.inj hone]
  · intro hdistinct tx hmem
    obtain ⟨last, hlast⟩ := MemoryStore.exists_lastWith (P := P) hmem
    obtain ⟨pre, tx', post, hsplit, rfl, hhash, -⟩ := MemoryStore.lastWith_eq_some.mp hlast
    have hmem' : tx' ∈ acceptedTransactions es := by
      rw [hsplit]
      exact List.mem_append_right _ List.mem_cons_self
    refine ⟨_, (getTxByHash_of_run run).mpr (by rw [hlast, Option.some_or]), ?_⟩
    refine hdistinct tx' hmem' tx hmem ?_
    exact (Transaction.hash_eq_iff hsha (hcaches tx' hmem') (hcaches tx hmem)
      (data_mem_dataOf hmem') (data_mem_dataOf hmem)).mp hhash

end Store

/-! ### Transactions that differ -/

/-- **What tells transactions apart is their `Data`.** Different transactions have different hashes,
a verified transaction is never dropped for another one, and the store returns every transaction of
the accepted blocks, exactly if those that differ at all differ in `Data`. SHA-256 is asked not to
collide on the `Data` that occurs. -/
theorem identity_iff {P : Primitives} :
    (∀ tx tx' : Transaction, Set.InjOn P.sha256 {tx.data, tx'.data} →
      ((tx.unsigned ≠ tx'.unsigned → TxHasher.hash P tx ≠ TxHasher.hash P tx') ↔
        (tx.data = tx'.data → tx.unsigned = tx'.unsigned))) ∧
    (∀ {E S : Type} (n : Node E S) (tx : Transaction) (now : Int64), n.memPool.Sound P →
      (∀ tx' ∈ tx :: n.memPool.all.txx, tx'.CacheCorrect P) →
      Set.InjOn P.sha256 (dataOf (tx :: n.memPool.all.txx)) → tx.verify P = .ok () →
      ((∃ tx' ∈ (Node.processTransaction P tx now n).2.memPool.all.txx,
          tx'.unsigned = tx.unsigned) ↔
        ∀ tx' ∈ n.memPool.all.txx, tx'.data = tx.data → tx'.unsigned = tx.unsigned)) ∧
    ∀ {E : Type} [ConsensusEngine P E] (bc₀ bc : Blockchain E MemoryStore)
      (es : List (Block × Outcome Err Unit)), History (Blockchain.Called P) bc₀ es bc →
      (∀ tx ∈ acceptedTransactions es, tx.CacheCorrect P) →
      Set.InjOn P.sha256 (dataOf (acceptedTransactions es)) →
      ((∀ tx ∈ acceptedTransactions es, ∃ tx', bc.getTxByHash P (tx.hash P) = .ok tx' ∧
          tx'.unsigned = tx.unsigned) ↔
        ∀ tx ∈ acceptedTransactions es, ∀ tx' ∈ acceptedTransactions es, tx.data = tx'.data →
          tx.unsigned = tx'.unsigned) := by
  refine ⟨fun tx tx' hsha => ?_, ?_, ?_⟩
  · have hhash : TxHasher.hash P tx = TxHasher.hash P tx' ↔ tx.data = tx'.data :=
      hsha.eq_iff (Set.mem_insert _ _) (Set.mem_insert_of_mem _ rfl)
    rw [not_imp_not, hhash]
  · intro E S n tx now hpool hcaches hsha hverified
    exact mem_pool_processTransaction_iff hpool hcaches hsha
      (Act.eq_mk_of_fst (processTransaction_of_verified hpool hverified now))
  · intro E _ bc₀ bc es run hcaches hsha
    exact found_iff run hcaches hsha

/-- Two transfers that differ in their nonce are one to the hasher. -/
theorem identity_iff_transfers :
    ¬ ((sampleTransfer 0 0).unsigned ≠ (sampleTransfer 0 1).unsigned →
      TxHasher.hash .sample (sampleTransfer 0 0) ≠ TxHasher.hash .sample (sampleTransfer 0 1)) := by
  rw [identity_iff.1 (sampleTransfer 0 0) (sampleTransfer 0 1)
    (Set.injOn_pair.mpr fun _ => rfl)]
  decide

/-- The block with the two transfers. -/
def twinBlock : Block :=
  sampleBlock sampleGenesis [sampleTransfer 0 0, sampleTransfer 0 1] (sampleAddress 1)

/-- **Two transfers with one hash.** The second one is verified, and a node that has the first drops
it without an error. A block with both is accepted, and the hash of the first one finds the second.
-/
theorem transfers_share_hash :
    (sampleTransfer 0 0).unsigned ≠ (sampleTransfer 0 1).unsigned ∧
      TxHasher.hash .sample (sampleTransfer 0 0) = TxHasher.hash .sample (sampleTransfer 0 1) ∧
      (sampleTransfer 0 1).verify .sample = .ok () ∧
      (∃ n, Node.processTransaction .sample (sampleTransfer 0 0) 0 Node.sampleNode = (.ok (), n) ∧
        Node.processTransaction .sample (sampleTransfer 0 1) 0 n = (.ok (), n) ∧
        ∀ tx ∈ n.memPool.all.txx, tx.unsigned = (sampleTransfer 0 0).unsigned) ∧
      ∃ bc, Blockchain.addBlock .sample 1 twinBlock Node.sampleNode.chain = (.ok (), bc) ∧
        ∃ tx, bc.getTxByHash .sample ((sampleTransfer 0 0).hash .sample) = .ok tx ∧
          tx.unsigned = (sampleTransfer 0 1).unsigned := by
  refine ⟨by decide, rfl, by decide +kernel, ?_, ?_⟩
  · have hfirst : (Node.processTransaction .sample (sampleTransfer 0 0) 0 Node.sampleNode).1 =
        .ok () := by decide +kernel
    refine ⟨_, Act.eq_mk_of_fst hfirst, ?_, by decide +kernel⟩
    have hknown : (Node.processTransaction .sample (sampleTransfer 0 0) 0
        Node.sampleNode).2.memPool.contains ((sampleTransfer 0 1).hash .sample) := by decide +kernel
    unfold Node.processTransaction at hknown ⊢
    rw [Act.get_bind_apply, if_pos hknown]
    rfl
  · have hadd : (Blockchain.addBlock .sample 1 twinBlock Node.sampleNode.chain).1 = .ok () := by
      decide +kernel
    refine ⟨_, Act.eq_mk_of_fst hadd, (sampleTransfer 0 1).cacheHash .sample, ?_, rfl⟩
    decide +kernel

end Blockz
