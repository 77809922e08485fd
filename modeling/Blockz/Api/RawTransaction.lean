import Blockz.Api.BlockByNumber
import Blockz.Network.Identity

/-!
# The hash of a submitted transaction

`handleSendRawTransaction` decodes the bytes it was given, hands the transaction to the node, and
returns the SHA-256 of the bytes. Pool and store know a transaction by the SHA-256 of its `Data`.

* `caches_of_run` — in every state of a run, the cached hashes in the pool are hashes of `Data`: a
  decoder leaves the cache unset, and only `Hash` writes it.
* `returned_hash_iff` — after a submission without an error, the returned hash leads to the
  transaction in the pool, and to the transaction in the store behind any run of blocks, exactly if
  the bytes are the `Data` of what they decode to, and the place under that hash has not gone to
  another transaction. What the gob encoder makes of a transaction is never its `Data`: that is one
  field of it.
-/

namespace Blockz

open Effect
open Blockchain (acceptedTransactions)

/-! ### Cached hashes along a run -/

namespace Node

variable {E S : Type} {P : Primitives} {C : Codecs}

theorem caches_processTransaction {n n' : Node E S} (hpool : n.memPool.Sound P) {tx : Transaction}
    {now : Int64} {o : Outcome Err Unit} (htx : tx.CacheCorrect P)
    (hcaches : ∀ tx' ∈ n.memPool.all.txx, tx'.CacheCorrect P)
    (hcall : processTransaction P tx now n = (o, n')) :
    ∀ tx' ∈ n'.memPool.all.txx, tx'.CacheCorrect P := by
  by_cases hok : o = .ok ()
  · subst hok
    intro tx' hmem
    rw [processTransaction_all hpool hcall] at hmem
    split at hmem
    · exact hcaches tx' hmem
    · rcases List.mem_append.mp hmem with hkept | hnew
      · exact hcaches tx' ((TxPool.kept_sublist _).subset hkept)
      · rw [List.mem_singleton.mp hnew]
        exact (htx.cacheHash).cacheHash
  · -- an error leaves the node alone
    cases Admission.of_call hpool hcall with
    | known _ => exact absurd rfl hok
    | refused _ _ _ => exact hcaches
    | admitted _ _ _ => exact absurd rfl hok

variable [ConsensusEngine P E] [Storage P S] [SealingEngine P E]

/-- A call with a transaction that a decoder has returned. The cached hash is not an exported field,
so gob leaves it unset. -/
def HandledDecoded (P : Primitives) [ConsensusEngine P E] [Storage P S] [SealingEngine P E]
    (C : Codecs) (n : Node E S) (i : Input) (o : Outcome Err Unit) (n' : Node E S) : Prop :=
  Handled P C n i o n' ∧ ∀ tx now, i.transaction = some (tx, now) → tx.cachedHash = Hash.zero

theorem handle_of_transaction {i : Input} {tx : Transaction} {now : Int64}
    (hi : i.transaction = some (tx, now)) (fuel : ℕ) :
    handle P C fuel i = (processTransaction P tx now : Act (Node E S) Err Unit) := by
  cases i with
  | message moment msg =>
    obtain ⟨sender, data⟩ := msg
    cases data with
    | transaction tx' =>
      obtain ⟨rfl, rfl⟩ := Prod.mk.inj (Option.some.inj hi)
      rfl
    | _ => exact nomatch hi
  | submitted tx' now' =>
    obtain ⟨rfl, rfl⟩ := Prod.mk.inj (Option.some.inj hi)
    rfl
  | tick _ => exact nomatch hi

/-- **The cached hashes of the pool are right in every state of a run.** -/
theorem caches_of_run {fuel : ℕ} {opts : ServerOpts E S} {n₀ n : Node E S}
    {es : List (Input × Outcome Err Unit)} (hnew : newServer P fuel opts = .ok n₀)
    (hrun : History (HandledDecoded P C) n₀ es n) :
    n.memPool.Sound P ∧ ∀ tx ∈ n.memPool.all.txx, tx.CacheCorrect P := by
  refine hrun.invariant (fun n => n.memPool.Sound P ∧
    ∀ tx ∈ n.memPool.all.txx, tx.CacheCorrect P) ⟨sound_newServer hnew, ?_⟩ ?_
  · rw [memPool_newServer hnew]
    exact fun tx hmem => absurd hmem List.not_mem_nil
  rintro n i o n' ⟨hpool, hcaches⟩ ⟨hcall, hdecoded⟩
  have hhandling := Handling.of_handled hpool hcall
  refine ⟨hhandling.sound hpool, ?_⟩
  cases hhandling with
  | transaction submits _ =>
    obtain ⟨fuel, hcall⟩ := hcall
    rw [handle_of_transaction submits] at hcall
    exact caches_processTransaction hpool (Or.inl (hdecoded _ _ submits)) hcaches hcall
  | blocks quiet =>
    rw [quiet.memPool]
    exact hcaches
  | refused _ _ _ _ memPool _ =>
    rw [memPool]
    exact hcaches
  | proposed _ _ _ cleared _ =>
    rw [cleared]
    exact hcaches

/-- On an empty store a new node has no transactions. -/
theorem txByHash_newServer {E : Type} [ConsensusEngine P E] {fuel : ℕ}
    {opts : ServerOpts E MemoryStore} {n : Node E MemoryStore}
    (hstore : opts.storage = MemoryStore.new) (hnew : newServer P fuel opts = .ok n) (hash : Hash) :
    n.chain.store.txByHash.lookup hash = none := by
  obtain ⟨bc, hbc, hn⟩ := Outcome.bind_eq_ok.mp hnew
  obtain rfl := Outcome.ok.inj hn
  have hempty : bc.store.txByHash.lookup hash = none := by
    rw [hstore] at hbc
    rcases Blockchain.newBlockchain_cases rfl hbc with ⟨-, hput⟩ | ⟨b, hget, -, -⟩
    · rw [hput, MemoryStore.put_apply rfl, MemoryStore.lookup_txByHash_insertBlock]
      exact Finmap.lookup_empty hash
    · exact nomatch hget
  cases opts.consensus with
  | none => exact hempty
  | some e => exact hempty

end Node

/-! ### Submissions -/

/-- The bytes and the transaction that the parameters stand for. -/
structure Submits (L : RPCLibrary) (params : List (List UInt8)) (raw : List UInt8)
    (tx : Transaction) : Prop where
  bytes : ∃ rawTx digits, stringParam L "transaction data" params = .ok rawTx ∧
    strip0x rawTx = .ok digits ∧ L.decodeString digits = .ok raw
  decoded : L.decodeTransaction raw = .ok tx

/-- A decoder sets exported fields only. -/
def RPCLibrary.LeavesHashUnset (L : RPCLibrary) : Prop :=
  ∀ raw tx, L.decodeTransaction raw = .ok tx → tx.cachedHash = Hash.zero

section Answer

variable {E S : Type} {L : RPCLibrary} {P : Primitives} {params : List (List UInt8)}
  {raw : List UInt8} {tx : Transaction} {now : Int64} {n n' : Node E S}

/-- What a submission does when the parameters have been read. -/
theorem handleSendRawTransaction_apply (hsub : Submits L params raw tx) :
    handleSendRawTransaction L P params now n =
      (Node.processTransaction P tx now >>= fun _ =>
        (pure ("0x" ++ (P.sha256 raw).toHex) : Act (Node E S) Err String)) n := by
  obtain ⟨⟨rawTx, digits, hparam, hstrip, hbytes⟩, hdecoded⟩ := hsub
  unfold handleSendRawTransaction
  rw [hparam, Act.bind_apply_ok (Act.lift_apply _ _), hstrip,
    Act.bind_apply_ok (Act.lift_apply _ _), hbytes, Act.bind_apply_ok (Act.lift_apply _ _),
    hdecoded, Act.bind_apply_ok (Act.lift_apply _ _)]

theorem handleSendRawTransaction_eq_ok (hsub : Submits L params raw tx) {text : String} :
    handleSendRawTransaction L P params now n = (.ok text, n') ↔
      Node.processTransaction P tx now n = (.ok (), n') ∧
        text = "0x" ++ (P.sha256 raw).toHex := by
  rw [handleSendRawTransaction_apply hsub, Act.bind_eq_ok]
  constructor
  · rintro ⟨_, n₁, hprocess, hreturn⟩
    obtain ⟨htext, rfl⟩ := Prod.mk.inj hreturn
    exact ⟨hprocess, (Outcome.ok.inj htext).symm⟩
  · rintro ⟨hprocess, rfl⟩
    exact ⟨(), n', hprocess, rfl⟩

end Answer

/-! ### Where the returned hash leads -/

/-- The last transaction with the `Data` of `tx` asks for the same as `tx`. -/
def LastWithData (txx : List Transaction) (tx : Transaction) : Prop :=
  ∃ pre tx' post, txx = pre ++ tx' :: post ∧ tx'.unsigned = tx.unsigned ∧
    ∀ tx'' ∈ post, tx''.data ≠ tx.data

section Lookup

variable {P : Primitives} {raw : List UInt8} {tx : Transaction}

/-- A correct cache leads from the hash of some bytes to a transaction exactly if the bytes are its
`Data`. -/
theorem hash_eq_sha256_iff {txx : List Transaction}
    (hsha : Set.InjOn P.sha256 (insert raw (dataOf (tx :: txx)))) {tx' : Transaction}
    (hmem : tx' ∈ txx) (hcache : tx'.CacheCorrect P) :
    tx'.hash P = P.sha256 raw ↔ tx'.data = raw := by
  rw [hcache.hash_eq]
  exact hsha.eq_iff (Set.mem_insert_of_mem _ (data_mem_dataOf (List.mem_cons_of_mem _ hmem)))
    (Set.mem_insert _ _)

theorem pool_lookup_iff {E S : Type} {n n' : Node E S} (hpool : n.memPool.Sound P)
    (htx : tx.CacheCorrect P) (hcaches : ∀ tx' ∈ n.memPool.all.txx, tx'.CacheCorrect P)
    {now : Int64} (hcall : Node.processTransaction P tx now n = (.ok (), n'))
    (hsha : Set.InjOn P.sha256 (insert raw (dataOf (tx :: n.memPool.all.txx)))) :
    (∃ tx', n'.memPool.all.lookup.lookup (P.sha256 raw) = some tx' ∧
        tx'.unsigned = tx.unsigned) ↔
      raw = tx.data ∧
        ∀ tx' ∈ n.memPool.all.txx, tx'.data = tx.data → tx'.unsigned = tx.unsigned := by
  have hpool' := (Node.Admission.of_call hpool hcall).sound hpool
  have hcaches' := Node.caches_processTransaction hpool htx hcaches hcall
  have hall : ∀ tx' ∈ tx :: n.memPool.all.txx, tx'.CacheCorrect P :=
    List.forall_mem_cons.mpr ⟨htx, hcaches⟩
  rw [← mem_pool_processTransaction_iff hpool hall (hsha.mono (Set.subset_insert _ _)) hcall]
  -- what asks for the same has the same `Data`
  have hhash : ∀ tx' ∈ n'.memPool.all.txx, tx'.unsigned = tx.unsigned →
      (tx'.hash P = P.sha256 raw ↔ raw = tx.data) := by
    intro tx' hmem hsame
    rw [(hcaches' tx' hmem).hash_eq, eq_comm]
    unfold TxHasher.hash
    rw [Transaction.data_eq_of_unsigned hsame]
    exact hsha.eq_iff (Set.mem_insert _ _)
      (Set.mem_insert_of_mem _ (data_mem_dataOf List.mem_cons_self))
  constructor
  · rintro ⟨tx', hlookup, hsame⟩
    obtain ⟨hmem, heq⟩ := (hpool'.all.lookup_iff _ _).mp hlookup
    exact ⟨(hhash tx' hmem hsame).mp heq, tx', hmem, hsame⟩
  · rintro ⟨hraw, tx', hmem, hsame⟩
    exact ⟨tx', (hpool'.all.lookup_iff _ _).mpr ⟨hmem, (hhash tx' hmem hsame).mpr hraw⟩, hsame⟩

/-- Of several transactions, the hash of the bytes leads to the last one with this `Data`. -/
theorem lastWith_unsigned_iff {txx : List Transaction}
    (hhash : ∀ tx' ∈ txx, tx'.hash P = P.sha256 raw ↔ tx'.data = raw) :
    (∃ last, MemoryStore.lastWith P txx (P.sha256 raw) = some last ∧
        last.unsigned = tx.unsigned) ↔
      raw = tx.data ∧ LastWithData txx tx := by
  constructor
  · rintro ⟨last, hlast, hsame⟩
    obtain ⟨pre, tx', post, rfl, rfl, heq, hpost⟩ := MemoryStore.lastWith_eq_some.mp hlast
    have hraw : raw = tx.data := by
      rw [← (hhash tx' (by simp)).mp heq]
      exact Transaction.data_eq_of_unsigned hsame
    refine ⟨hraw, pre, tx', post, rfl, hsame, fun e he hdata => hpost e he ?_⟩
    exact (hhash e (by simp [he])).mpr (hdata.trans hraw.symm)
  · rintro ⟨hraw, pre, tx', post, rfl, hsame, hpost⟩
    refine ⟨tx'.cacheHash P, MemoryStore.lastWith_eq_some.mpr
      ⟨pre, tx', post, rfl, rfl, ?_, fun e he heq => hpost e he ?_⟩, hsame⟩
    · rw [hhash tx' (by simp), hraw]
      exact Transaction.data_eq_of_unsigned hsame
    · rw [← hraw]
      exact (hhash e (by simp [he])).mp heq

theorem store_lookup_iff {E : Type} [ConsensusEngine P E] {bc₀ bc : Blockchain E MemoryStore}
    {bs : List (Block × Outcome Err Unit)}
    (hempty : ∀ hash, bc₀.store.txByHash.lookup hash = none)
    (run : History (Blockchain.Called P) bc₀ bs bc)
    (hcaches : ∀ tx' ∈ acceptedTransactions bs, tx'.CacheCorrect P)
    (hsha : Set.InjOn P.sha256 (insert raw (dataOf (tx :: acceptedTransactions bs)))) :
    (∃ tx', bc.getTxByHash P (P.sha256 raw) = .ok tx' ∧ tx'.unsigned = tx.unsigned) ↔
      raw = tx.data ∧ LastWithData (acceptedTransactions bs) tx := by
  rw [← lastWith_unsigned_iff fun tx' hmem => hash_eq_sha256_iff hsha hmem (hcaches tx' hmem)]
  refine exists_congr fun tx' => and_congr_left' ?_
  rw [getTxByHash_of_run run, hempty, Option.or_none]

end Lookup

/-- **Where the returned hash leads.** A node was started on an empty store and has handled anything
that decoders return. A submission without an error returns the SHA-256 of the submitted bytes.
Under that hash the pool has the transaction exactly if the bytes are its `Data` and the pool had no
different transaction with that `Data`. Behind any run of blocks, the store returns the transaction
under that hash exactly if the bytes are its `Data` and the last accepted transaction with that
`Data` asks for the same. -/
theorem returned_hash_iff {E : Type} {P : Primitives} {C : Codecs} [ConsensusEngine P E]
    [SealingEngine P E] {fuel : ℕ} {opts : Node.ServerOpts E MemoryStore}
    {n₀ n n' : Node E MemoryStore} {es : List (Node.Input × Outcome Err Unit)}
    (hstore : opts.storage = MemoryStore.new)
    (hnew : Node.newServer P fuel opts = .ok n₀) (hrun : History (Node.HandledDecoded P C) n₀ es n)
    {L : RPCLibrary} (hgob : L.LeavesHashUnset) {params : List (List UInt8)} {raw : List UInt8}
    {tx : Transaction} (hsub : Submits L params raw tx) {now : Int64} {text : String}
    (hcall : handleSendRawTransaction L P params now n = (.ok text, n')) :
    text = "0x" ++ (P.sha256 raw).toHex ∧
    (Set.InjOn P.sha256 (insert raw (dataOf (tx :: n.memPool.all.txx))) →
      ((∃ tx', n'.memPool.all.lookup.lookup (P.sha256 raw) = some tx' ∧
          tx'.unsigned = tx.unsigned) ↔
        raw = tx.data ∧
          ∀ tx' ∈ n.memPool.all.txx, tx'.data = tx.data → tx'.unsigned = tx.unsigned)) ∧
    ∀ (bs : List (Block × Outcome Err Unit)) (bc : Blockchain E MemoryStore),
      History (Blockchain.Called P) n₀.chain bs bc →
      (∀ tx' ∈ acceptedTransactions bs, tx'.CacheCorrect P) →
      Set.InjOn P.sha256 (insert raw (dataOf (tx :: acceptedTransactions bs))) →
      ((∃ tx', bc.getTxByHash P (P.sha256 raw) = .ok tx' ∧ tx'.unsigned = tx.unsigned) ↔
        raw = tx.data ∧ LastWithData (acceptedTransactions bs) tx) := by
  obtain ⟨hprocess, htext⟩ := (handleSendRawTransaction_eq_ok hsub).mp hcall
  obtain ⟨hpool, hcaches⟩ := Node.caches_of_run hnew hrun
  have htx : tx.CacheCorrect P := Or.inl (hgob raw tx hsub.decoded)
  refine ⟨htext, pool_lookup_iff hpool htx hcaches hprocess, ?_⟩
  exact fun bs bc run => store_lookup_iff (Node.txByHash_newServer hstore hnew) run

/-! ### A submission -/

/-- Pairs of digits from bytes. -/
def hexDigits (bytes : List UInt8) : List UInt8 :=
  bytes.flatMap fun b => [digit (b / 16), digit (b % 16)]
where
  digit (d : UInt8) : UInt8 := if d < 10 then 48 + d else 87 + d

/-- A transfer without `Data`, encoded. -/
def rawTransfer : List UInt8 := sampleTransactionFields (sampleTransfer 0 0)

/-- The parameters of its submission: in quotes, behind `0x`. -/
def rawParams : List (List UInt8) := [34 :: (ascii "0x" ++ hexDigits rawTransfer) ++ [34]]

theorem submits_rawTransfer : Submits .sample rawParams rawTransfer (sampleTransfer 0 0) where
  bytes := ⟨ascii "0x" ++ hexDigits rawTransfer, hexDigits rawTransfer, by decide +kernel,
    by decide +kernel, by decide +kernel⟩
  decoded := by decide +kernel

theorem leavesHashUnset_sample : RPCLibrary.sample.LeavesHashUnset := by
  intro raw tx hdecoded
  by_cases hraw : raw = sampleTransactionFields (sampleTransfer 0 0)
  · rw [← Outcome.ok.inj ((if_pos hraw).symm.trans hdecoded)]
    rfl
  · exact nomatch (if_neg hraw).symm.trans hdecoded

theorem sha256_rawTransfer_ne :
    sampleDigest rawTransfer ≠ sampleDigest (sampleTransfer 0 0).data := by
  decide +kernel

/-- The node takes it. -/
theorem processTransaction_sampleTransfer :
    (Node.processTransaction .sample (sampleTransfer 0 0) 0 Node.sampleNode).1 = .ok () := by
  decide +kernel

theorem handle_rawTransfer :
    handleSendRawTransaction .sample .sample rawParams 0 Node.sampleNode =
      (.ok ("0x" ++ (sampleDigest rawTransfer).toHex),
        (Node.processTransaction .sample (sampleTransfer 0 0) 0 Node.sampleNode).2) :=
  (handleSendRawTransaction_eq_ok submits_rawTransfer).mpr
    ⟨Act.eq_mk_of_fst processTransaction_sampleTransfer, rfl⟩

/-- The criterion for it: the node has nothing under the hash that it has returned. -/
theorem returned_hash_iff_rawTransfer :
    ∃ text n', handleSendRawTransaction .sample .sample rawParams 0 Node.sampleNode =
        (.ok text, n') ∧
      ¬ ∃ tx', n'.memPool.all.lookup.lookup (sampleDigest rawTransfer) = some tx' ∧
        tx'.unsigned = (sampleTransfer 0 0).unsigned := by
  refine ⟨_, _, handle_rawTransfer, ?_⟩
  have hstore : Node.sampleOpts.storage = MemoryStore.new := rfl
  have hiff := (returned_hash_iff (C := Node.noContent) hstore Node.newServer_sampleNode .start
    leavesHashUnset_sample submits_rawTransfer handle_rawTransfer).2.1 ?_
  · exact fun hfound => absurd (hiff.mp hfound).1 (by decide)
  · rintro a (rfl | ⟨tx, hmem, rfl⟩) b (rfl | ⟨tx', hmem', rfl⟩) heq
    · rfl
    · rw [List.mem_singleton.mp hmem'] at heq
      exact absurd heq sha256_rawTransfer_ne
    · rw [List.mem_singleton.mp hmem] at heq
      exact absurd heq.symm sha256_rawTransfer_ne
    · rw [List.mem_singleton.mp hmem, List.mem_singleton.mp hmem']

/-- **A returned hash that finds nothing.** The node takes the transfer and returns a hash, under
which the pool has nothing. A block with the transfer is accepted, and the store has nothing under
that hash either. -/
theorem returned_hash_finds_nothing :
    ∃ n' bc, handleSendRawTransaction .sample .sample rawParams 0 Node.sampleNode =
        (.ok ("0x" ++ (sampleDigest rawTransfer).toHex), n') ∧
      n'.memPool.all.lookup.lookup (sampleDigest rawTransfer) = none ∧
      Blockchain.addBlock .sample 1
        (sampleBlock sampleGenesis [sampleTransfer 0 0] (sampleAddress 1)) Node.sampleNode.chain =
        (.ok (), bc) ∧
      bc.getTxByHash .sample (sampleDigest rawTransfer) =
        .err (.transactionNotFound (sampleDigest rawTransfer)) := by
  have hadd : (Blockchain.addBlock .sample 1
      (sampleBlock sampleGenesis [sampleTransfer 0 0] (sampleAddress 1))
        Node.sampleNode.chain).1 = .ok () := by decide +kernel
  exact ⟨_, _, handle_rawTransfer, by decide +kernel, Act.eq_mk_of_fst hadd, by decide +kernel⟩

end Blockz
