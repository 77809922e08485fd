import Blockz.Network.Proposing

/-!
# Pending transactions and the chain

A transaction is pending until the node's own block has it. A block that comes from a peer does not
take anything out of the pool, and `ProcessTransaction` looks into the pool and not into the chain.
So a transaction can be pending and on the chain, and the next block executes it again.

* `Contains` — a block that the chain returns carries the transaction. What counts is the exported
  fields, which are what a peer is sent.
* `pending_not_on_chain` — it does not happen in runs in which no unknown transaction that is
  submitted is on the chain, and no block that is delivered carries a pending one.
* `pending_on_chain` — it happens when a peer is faster with a block.
-/

namespace Blockz

open Effect

/-! ### What is on a chain -/

/-- The block carries the transaction, up to what gob does not carry. -/
def Block.Carries (b : Block) (tx : Transaction) : Prop :=
  ∃ tx' ∈ b.transactions, tx'.exported = tx.exported

theorem Block.carries_iff_mem (b : Block) (tx : Transaction) :
    b.Carries tx ↔ tx.exported ∈ b.exported.transactions :=
  List.mem_map.symm

theorem Block.carries_congr {b b' : Block} (hexp : b'.exported = b.exported) (tx : Transaction) :
    b'.Carries tx ↔ b.Carries tx := by
  rw [b'.carries_iff_mem, b.carries_iff_mem, hexp]

namespace Blockchain

variable {E S : Type} {P : Primitives} [Storage P S]

/-- A block of the chain carries the transaction. -/
def Contains (P : Primitives) [Storage P S] (bc : Blockchain E S) (tx : Transaction) : Prop :=
  ∃ i b, bc.getBlock P i = .ok b ∧ b.Carries tx

/-- What `AddBlock` brings onto the chain is what the block carries, if it is accepted. -/
theorem Called.contains [ConsensusEngine P E] [FaithfulStorage P S] {bc bc' : Blockchain E S}
    {b : Block} {o : Outcome Err Unit} {tx : Transaction} (hcall : Called P bc b o bc')
    (hmem : bc'.Contains P tx) : bc.Contains P tx ∨ o = .ok () ∧ b.Carries tx := by
  obtain ⟨fuel, hadd⟩ := hcall
  cases AddStep.of_call hadd with
  | invalid _ _ => exact Or.inl hmem
  | aborted _ _ _ => exact Or.inl hmem
  | crashed _ _ _ => exact Or.inl hmem
  | @appended c' h ws total o s valid _ _ put =>
    obtain ⟨i, b', hget, hcarries⟩ := hmem
    change Storage.get P s i = .ok b' at hget
    have hok := LawfulStorage.put_ok (P := P) bc.store valid.header
    have hs : s = (Storage.put P b bc.store).2 := by rw [put]
    rw [put] at hok
    rw [hs] at hget
    by_cases hi : i = h.height
    · subst hi
      have hexp := FaithfulStorage.exported_put_self bc.store valid.header hget
      exact Or.inr ⟨hok, (Block.carries_congr hexp tx).mp hcarries⟩
    · rw [LawfulStorage.get_put_of_ne bc.store valid.header hi] at hget
      exact Or.inl ⟨i, b', hget, hcarries⟩

end Blockchain

namespace Node

variable {E S : Type} {P : Primitives} [ConsensusEngine P E] [Storage P S] {C : Codecs}

/-! ### Runs that keep them apart -/

/-- No pending transaction is on the chain. -/
def Apart (P : Primitives) [Storage P S] (n : Node E S) : Prop :=
  ∀ tx ∈ n.memPool.pending.txx, ¬ n.chain.Contains P tx

/-- A condition on what a node is given: an unknown transaction is not on the chain, and no block
carries a pending one. -/
structure Fresh (P : Primitives) [Storage P S] (n : Node E S) (i : Input) : Prop where
  transaction : ∀ tx now, i.transaction = some (tx, now) → ¬ n.memPool.contains (tx.hash P) →
    ¬ n.chain.Contains P tx
  blocks : ∀ b ∈ i.blocks, ∀ tx ∈ n.memPool.pending.txx, ¬ b.Carries tx

variable [SealingEngine P E]

/-- One call that is given something fresh. -/
def HandledFresh (P : Primitives) [ConsensusEngine P E] [Storage P S] [SealingEngine P E]
    (C : Codecs) (n : Node E S) (i : Input) (o : Outcome Err Unit) (n' : Node E S) : Prop :=
  Fresh P n i ∧ Handled P C n i o n'

omit [ConsensusEngine P E] [SealingEngine P E] in
theorem Apart.admission {n n' : Node E S} {tx : Transaction} {now : Int64} {o : Outcome Err Unit}
    (hn : n.Apart P) (hstep : Admission P tx now n o n')
    (hfresh : ¬ n.memPool.contains (tx.hash P) → ¬ n.chain.Contains P tx) : n'.Apart P := by
  cases hstep with
  | known _ => exact hn
  | refused _ _ _ => exact hn
  | admitted absent _ _ =>
    intro tx' hmem
    rcases TxSortedMap.mem_txx_add hmem with hold | rfl
    · exact hn tx' hold
    · exact hfresh absent

/-- Every call keeps them apart, if it is given something fresh. The node's own block needs no
condition: it takes the whole pool with it. -/
theorem Apart.step [FaithfulStorage P S] {n n' : Node E S} {i : Input} (hn : n.Apart P)
    (hfresh : Fresh P n i) (hstep : Handling P n i n') : n'.Apart P := by
  cases hstep with
  | transaction submits admission =>
    exact hn.admission admission (hfresh.transaction _ _ submits)
  | blocks quiet =>
    intro tx hmem
    rw [quiet.memPool] at hmem
    refine quiet.chain.invariant (fun bc => ¬ bc.Contains P tx) (hn tx hmem) ?_
    intro bc b o bc' hb hbc hcall hcontains
    rcases hcall.contains hcontains with hold | ⟨-, hcarries⟩
    · exact hbc hold
    · exact hfresh.blocks b hb tx hmem hcarries
  | refused _ _ call stop memPool _ =>
    intro tx hmem hcontains
    rw [memPool] at hmem
    rcases call.contains hcontains with hold | ⟨hok, -⟩
    · exact hn tx hmem hold
    · exact stop hok
  | proposed _ _ _ cleared _ =>
    intro tx hmem
    rw [cleared] at hmem
    exact absurd hmem List.not_mem_nil

/-- **When pending transactions are not on the chain.** From a new node on any store, in every run
in which no unknown transaction that is submitted is on the chain and no block that is delivered
carries a pending one: no pending transaction is on the chain, and a block that the node makes has
none that is. -/
theorem pending_not_on_chain [FaithfulStorage P S] {fuel : ℕ} {opts : ServerOpts E S}
    {n₀ n : Node E S} {es : List (Input × Outcome Err Unit)} (hnew : newServer P fuel opts = .ok n₀)
    (hrun : History (HandledFresh P C) n₀ es n) :
    (∀ tx ∈ n.memPool.pending.txx, ¬ n.chain.Contains P tx) ∧
      ∀ key tick b, n.chain.assembleBlock P key n.memPool.pending.txx tick = .ok b →
        ∀ tx ∈ b.transactions, ¬ n.chain.Contains P tx := by
  have hstart : n₀.Apart P := by
    intro tx hmem
    rw [memPool_newServer hnew] at hmem
    exact absurd hmem List.not_mem_nil
  have hapart : n.Apart P :=
    (invariant_of_run hrun And.right (sound_newServer hnew) hstart
      fun hn hcall hstep => hn.step hcall.1 hstep).2
  refine ⟨hapart, fun key tick b hb tx hmem => hapart tx ?_⟩
  obtain ⟨current, -, hbuild⟩ := Outcome.bind_eq_ok.mp hb
  rwa [Blockchain.buildBlock_transactions hbuild] at hmem

/-! ### A peer's block -/

theorem not_contains_sampleNode (tx : Transaction) : ¬ sampleNode.chain.Contains .sample tx := by
  rintro ⟨i, b, hget, tx', hmem, -⟩
  have hlookup : (MemoryStore.new.blocks.insert 0
      (MemoryStore.cached .sample Blockchain.sampleGenesisBlock sampleGenesis)).lookup i = some b :=
    MemoryStore.find_eq_ok.mp hget
  by_cases hi : i = 0
  · rw [hi, Finmap.lookup_insert] at hlookup
    obtain rfl := Option.some.inj hlookup
    exact absurd hmem List.not_mem_nil
  · rw [Finmap.lookup_insert_of_ne _ hi] at hlookup
    exact nomatch (Finmap.lookup_empty i).symm.trans hlookup

/-- A peer's block with one transaction. -/
def peerBlock (tx : Transaction) : Block := sampleBlock sampleGenesis [tx] (sampleAddress 1)

def peerMessage (tx : Transaction) : Input := .message sampleMoment ⟨"B", .block (peerBlock tx)⟩

/-- The node that has been sent a transaction, and then a block with `tx`. -/
def overtakenNode (tx : Transaction) : Node PoWEngine MemoryStore :=
  (processBlock .sample noContent 1 "B" (peerBlock tx) (pendingNode (sampleTransfer 0 0))).2

/-- The theorem for a node that has accepted a block with another transaction than the one that is
pending. -/
theorem pending_not_on_chain_sampleTransfer :
    (overtakenNode (sampleTransfer 0 1)).memPool.pending.txx =
        [(sampleTransfer 0 0).seenAt .sample 0] ∧
      (overtakenNode (sampleTransfer 0 1)).chain.Contains .sample (sampleTransfer 0 1) ∧
      (∀ tx ∈ (overtakenNode (sampleTransfer 0 1)).memPool.pending.txx,
        ¬ (overtakenNode (sampleTransfer 0 1)).chain.Contains .sample tx) ∧
      ∀ key tick b, (overtakenNode (sampleTransfer 0 1)).chain.assembleBlock .sample key
          (overtakenNode (sampleTransfer 0 1)).memPool.pending.txx tick = .ok b →
        ∀ tx ∈ b.transactions,
          ¬ (overtakenNode (sampleTransfer 0 1)).chain.Contains .sample tx := by
  have hsubmitted : Fresh .sample sampleNode (.submitted (sampleTransfer 0 0) 0) :=
    ⟨fun tx _ _ _ => not_contains_sampleNode tx, fun b hb => absurd hb List.not_mem_nil⟩
  -- the two transactions have the same hash but not the same nonce
  have hother : ¬ (peerBlock (sampleTransfer 0 1)).Carries
      ((sampleTransfer 0 0).seenAt .sample 0) := by
    rintro ⟨tx, hmem, hexported⟩
    rw [List.mem_singleton.mp hmem] at hexported
    exact absurd (congrArg Transaction.nonce hexported) (by decide)
  have hdelivered : Fresh .sample (pendingNode (sampleTransfer 0 0))
      (peerMessage (sampleTransfer 0 1)) := by
    refine ⟨nofun, fun b hb tx htx => ?_⟩
    rw [List.mem_singleton.mp hb, List.mem_singleton.mp htx]
    exact hother
  have haccepted : (processBlock .sample noContent 1 "B" (peerBlock (sampleTransfer 0 1))
      (pendingNode (sampleTransfer 0 0))).1 = .ok () := by decide +kernel
  have hquiet : Quiet .sample (fun _ => True) (pendingNode (sampleTransfer 0 0))
      (overtakenNode (sampleTransfer 0 1)) := processBlock_quiet 1 "B" trivial _
  have hblock : (overtakenNode (sampleTransfer 0 1)).chain.getBlock .sample 1 =
      .ok (MemoryStore.cached .sample (peerBlock (sampleTransfer 0 1))
        (sampleHeader sampleGenesis [sampleTransfer 0 1] (sampleAddress 1))) := by decide +kernel
  have hrun : History (HandledFresh .sample noContent) sampleNode
      [(.submitted (sampleTransfer 0 0) 0, .ok ()), (peerMessage (sampleTransfer 0 1), .ok ())]
      (overtakenNode (sampleTransfer 0 1)) :=
    .call (.call .start ⟨hsubmitted, 0, rfl⟩) ⟨hdelivered, 1, Act.eq_mk_of_fst haccepted⟩
  refine ⟨?_, ⟨1, _, hblock, _, List.mem_cons_self, rfl⟩,
    pending_not_on_chain newServer_sampleNode hrun⟩
  rw [hquiet.memPool]
  rfl

/-- **A transaction is on the chain and still pending.** A peer has put it into a block, which is
accepted; the node's next block has it again. -/
theorem pending_on_chain :
    newServer .sample 1 sampleOpts = .ok sampleNode ∧
      History (Handled .sample noContent) sampleNode
        [(.submitted (sampleTransfer 0 0) 0, .ok ()), (peerMessage (sampleTransfer 0 0), .ok ())]
        (overtakenNode (sampleTransfer 0 0)) ∧
      ∃ tx ∈ (overtakenNode (sampleTransfer 0 0)).memPool.pending.txx,
        (overtakenNode (sampleTransfer 0 0)).chain.Contains .sample tx ∧
        ∃ b, (overtakenNode (sampleTransfer 0 0)).chain.assembleBlock .sample sampleKey
          (overtakenNode (sampleTransfer 0 0)).memPool.pending.txx sampleTick = .ok b ∧
            tx ∈ b.transactions := by
  have haccepted : (processBlock .sample noContent 1 "B" (peerBlock (sampleTransfer 0 0))
      (pendingNode (sampleTransfer 0 0))).1 = .ok () := by decide +kernel
  have hquiet : Quiet .sample (fun _ => True) (pendingNode (sampleTransfer 0 0))
      (overtakenNode (sampleTransfer 0 0)) := processBlock_quiet 1 "B" trivial _
  have hpending : (sampleTransfer 0 0).cacheHash .sample ∈
      (overtakenNode (sampleTransfer 0 0)).memPool.pending.txx := by
    rw [hquiet.memPool]
    exact List.mem_cons_self
  have hblock : (overtakenNode (sampleTransfer 0 0)).chain.getBlock .sample 1 =
      .ok (MemoryStore.cached .sample (peerBlock (sampleTransfer 0 0))
        (sampleHeader sampleGenesis [sampleTransfer 0 0] (sampleAddress 1))) := by decide +kernel
  have hmade : ((overtakenNode (sampleTransfer 0 0)).chain.assembleBlock .sample sampleKey
      (overtakenNode (sampleTransfer 0 0)).memPool.pending.txx sampleTick >>=
        fun b => .ok b.transactions) =
      .ok (overtakenNode (sampleTransfer 0 0)).memPool.pending.txx := by decide +kernel
  obtain ⟨b, hb, htxx⟩ := Outcome.bind_eq_ok.mp hmade
  refine ⟨newServer_sampleNode, ?_, _, hpending, ⟨1, _, hblock, _, List.mem_cons_self, rfl⟩, b, hb,
    ?_⟩
  · exact .call (.call .start ⟨0, rfl⟩) ⟨1, Act.eq_mk_of_fst haccepted⟩
  · rw [Outcome.ok.inj htxx]
    exact hpending

end Node

end Blockz
