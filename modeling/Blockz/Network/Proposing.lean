import Blockz.Chain.Proposal
import Blockz.Chain.Restart
import Blockz.Network.Running

/-!
# Whether a node's own blocks get onto its chain

`ProcessTransaction` admits what carries a valid signature. Whether a transaction can be executed is
found out by `AddBlock`, on the block that `createNewBlock` has made of everything that is pending.
If one of them fails the block is refused, and since the pending transactions are cleared only
behind `AddBlock`, the next block has the same ones.

* `own_block_valid` — on every chain that a process can hold, the block that `createNewBlock` makes
  of transactions which `ProcessTransaction` has let in is valid. So much of it fits together.
* `Healthy` — what a run keeps: pending transactions verify, and the chain can be extended.
* `createNewBlock_succeeds_iff` — in every state of a run, `createNewBlock` reaches `ClearPending`
  exactly when the chain has room, every pending transaction executes when its turn comes, and no
  engine is installed or a proof of work that can weigh its own blocks.
* `createNewBlock_blocked` — one transfer without the means for it, and no block is made any more.
-/

namespace Blockz

open Effect

namespace Blockchain

variable {E S : Type} {P : Primitives} [ConsensusEngine P E] [Storage P S]

/-! ### Chains that can be extended -/

/-- The last header stands at its own height, and there is an accumulator for weights. -/
structure Extendable (bc : Blockchain E S) : Prop where
  tip : bc.TipNumbered
  weighs : bc.totalDifficulty.isSome = true

/-- Every call of `AddBlock` keeps that, however it ends. -/
theorem Extendable.called {bc bc' : Blockchain E S} {b : Block} {o : Outcome Err Unit}
    (hbc : bc.Extendable) (hcall : Called P bc b o bc') : bc'.Extendable := by
  have hused : Used P bc (.addBlock b) o bc' := hcall
  obtain ⟨fuel, hadd⟩ := hcall
  exact ⟨hbc.tip.addBlock (AddStep.of_call hadd), by rw [hused.isSome_totalDifficulty, hbc.weighs]⟩

/-- Each header stands at the height of its position. -/
def HeightsInOrder (hs : List Header) : Prop :=
  ∀ (i : ℕ) (h : Header), hs[i]? = some h → h.height.toNat = i

/-- `NewBlockchain` has put its genesis block into a store without a first block, or it has read the
headers back. -/
theorem newBlockchain_cases {s : S} {genesis : Block} {g : Header} {fuel : ℕ}
    {bc : Blockchain E S} (hg : genesis.header = some g)
    (hnew : newBlockchain P fuel genesis s = .ok bc) :
    (bc.headers = [g] ∧ bc.store = (Storage.put P genesis s).2) ∨
      ∃ b, Storage.get P s 0 = .ok b ∧ loadHeaders P s fuel 0 [] = .ok bc.headers ∧
        bc.store = s := by
  unfold newBlockchain at hnew
  cases hget : Storage.get P s 0 with
  | err e =>
    rw [hget] at hnew
    obtain ⟨_, -, hbc⟩ := Outcome.bind_eq_ok.mp hnew
    obtain rfl := Outcome.ok.inj hbc
    left
    unfold addBlockWithoutValidationLocked
    rw [hg]
    exact ⟨rfl, rfl⟩
  | ok b =>
    rw [hget] at hnew
    obtain ⟨hs, hload, hbc⟩ := Outcome.bind_eq_ok.mp hnew
    obtain rfl := Outcome.ok.inj hbc
    exact Or.inr ⟨b, rfl, hload, rfl⟩
  | panic p =>
    rw [hget] at hnew
    exact nomatch hnew
  | outOfFuel =>
    rw [hget] at hnew
    exact nomatch hnew

omit [ConsensusEngine P E] [Storage P S] in
/-- A chain of one header, which stands at height 0. -/
theorem TipNumbered.of_single {bc : Blockchain E S} {g : Header} (hheaders : bc.headers = [g])
    (hzero : g.height = 0) : bc.TipNumbered := by
  refine ⟨?_, ?_, fun h hh => ?_⟩
  · rw [hheaders]
    exact Nat.one_pos
  · rw [hheaders]
    norm_num
  · rw [hheaders] at hh ⊢
    obtain rfl := Option.some.inj hh
    rw [hzero]
    rfl

theorem Extendable.of_newBlockchain {s : S} {hs : List Header} {genesis : Block} {g : Header}
    {fuel : ℕ} {bc : Blockchain E S} (hold : Holds P s hs) (hroom : hs.length < 2 ^ 32)
    (horder : HeightsInOrder hs) (hg : genesis.header = some g) (hzero : g.height = 0)
    (hnew : newBlockchain P fuel genesis s = .ok bc) : bc.Extendable := by
  refine ⟨?_, by rw [totalDifficulty_newBlockchain hnew]; rfl⟩
  rcases newBlockchain_cases hg hnew with ⟨hheaders, -⟩ | ⟨b, hget, hload, -⟩
  · exact .of_single hheaders hzero
  · have hread := loadHeaders_of_holds hold hroom hs.length 0 (Nat.zero_add _)
    have hheaders : bc.headers = hs := loadHeaders_unique hload hread
    have hpos : 0 < hs.length := by
      refine Nat.pos_of_ne_zero fun hempty => ?_
      obtain ⟨e, hmissing⟩ := hold.missing 0 (hempty.trans_le (Nat.zero_le _))
      exact nomatch hget.symm.trans hmissing
    refine ⟨?_, ?_, fun h hh => ?_⟩
    · rwa [hheaders]
    · rw [hheaders]
      exact hroom.le
    · rw [hheaders] at hh ⊢
      rw [horder _ h hh]
      omega

/-! ### Chains that a process can hold -/

/-- A chain that `NewBlockchain` has made on an empty store, one that was driven further by any
calls, however they ended, and one that was opened again on the store of such a chain. -/
inductive Reached (P : Primitives) [ConsensusEngine P E] [Storage P S] : Blockchain E S → Prop
  | opened {s : S} {genesis : Block} {g : Header} {fuel : ℕ} {bc : Blockchain E S}
      (empty : ∀ i, ∃ e, Storage.get P s i = .err e) (header : genesis.header = some g)
      (first : g.height = 0) (new : newBlockchain P fuel genesis s = .ok bc) : Reached P bc
  | used {bc bc' : Blockchain E S} {u : Use E} {o : Outcome Err Unit} (past : Reached P bc)
      (use : Used P bc u o bc') : Reached P bc'
  | reopened {bc bc' : Blockchain E S} {genesis : Block} {g : Header} {fuel : ℕ}
      (past : Reached P bc) (header : genesis.header = some g) (first : g.height = 0)
      (new : newBlockchain P fuel genesis bc.store = .ok bc') : Reached P bc'

/-- The last header stands at its own height, and so does every block in the store. -/
structure Grounded (P : Primitives) [Storage P S] (bc : Blockchain E S) : Prop where
  tip : bc.TipNumbered
  store : InPlace P bc.store

theorem Grounded.of_newBlockchain [LawfulStorage P S] {s : S} {genesis : Block} {g : Header}
    {fuel : ℕ} {bc : Blockchain E S} (hstore : InPlace P s) (hg : genesis.header = some g)
    (hzero : g.height = 0) (hnew : newBlockchain P fuel genesis s = .ok bc) : bc.Grounded P := by
  rcases newBlockchain_cases hg hnew with ⟨hheaders, hput⟩ | ⟨b, hget, hload, hsame⟩
  · refine ⟨.of_single hheaders hzero, ?_⟩
    rw [hput]
    exact hstore.put hg
  · refine ⟨?_, by rwa [hsame]⟩
    obtain ⟨hs, hheaders, hloaded, e, hend⟩ := loadHeaders_inPlace hstore hload
    rw [List.nil_append] at hheaders
    have hlt : hs.length < 2 ^ 32 := by
      by_contra hge
      -- the counter has wrapped to a height that was read before
      have hj : hs.length % 2 ^ 32 < hs.length := by omega
      obtain ⟨-, b', hb'⟩ := hloaded _ _ (List.getElem?_eq_getElem hj)
      have hwrap : UInt32.ofNat (hs.length % 2 ^ 32) = UInt32.ofNat hs.length := by
        rw [← UInt32.toNat_inj, UInt32.toNat_ofNat', UInt32.toNat_ofNat', Nat.mod_mod]
      rw [hwrap, hend] at hb'
      exact nomatch hb'
    have hpos : 0 < hs.length := by
      refine Nat.pos_of_ne_zero fun hempty => ?_
      rw [hempty] at hend
      exact nomatch hget.symm.trans hend
    refine ⟨?_, ?_, fun h hh => ?_⟩
    · rwa [hheaders]
    · rw [hheaders]
      exact hlt.le
    · rw [hheaders] at hh ⊢
      obtain ⟨hheight, -⟩ := hloaded _ h hh
      rw [hheight, UInt32.zero_add, UInt32.toNat_ofNat', Nat.mod_eq_of_lt (by omega)]
      omega

theorem Grounded.used [LawfulStorage P S] {bc bc' : Blockchain E S} {u : Use E}
    {o : Outcome Err Unit} (hbc : bc.Grounded P) (huse : Used P bc u o bc') : bc'.Grounded P := by
  cases u with
  | setConsensus e =>
    obtain ⟨-, rfl⟩ := huse
    exact ⟨hbc.tip.of_headers rfl, hbc.store⟩
  | addBlock b =>
    obtain ⟨fuel, hcall⟩ := huse
    have hstep := AddStep.of_call hcall
    refine ⟨hbc.tip.addBlock hstep, ?_⟩
    cases hstep with
    | invalid _ _ => exact hbc.store
    | aborted _ _ _ => exact hbc.store
    | crashed _ _ _ => exact hbc.store
    | appended valid _ _ put =>
      have hstore := hbc.store.put valid.header
      rwa [put] at hstore

/-- **On every chain that a process can hold the last header stands at its own height.** -/
theorem Reached.grounded [LawfulStorage P S] {bc : Blockchain E S} (hbc : Reached P bc) :
    bc.Grounded P := by
  induction hbc with
  | opened empty header first new => exact .of_newBlockchain (.of_empty empty) header first new
  | used _ use ih => exact ih.used use
  | reopened _ header first new ih => exact .of_newBlockchain ih.store header first new

theorem HeightsInOrder.concat {hs : List Header} (horder : HeightsInOrder hs) {h : Header}
    (hheight : h.height.toNat = hs.length) : HeightsInOrder (hs ++ [h]) := by
  intro i h' hget
  rcases Nat.lt_trichotomy i hs.length with hlt | rfl | hgt
  · rw [List.getElem?_append_left hlt] at hget
    exact horder i h' hget
  · rw [List.getElem?_concat_length] at hget
    rw [← Option.some.inj hget, hheight]
  · rw [List.getElem?_eq_none (by rw [List.length_append, List.length_singleton]; omega)] at hget
    exact nomatch hget

theorem HeightsInOrder.of_newBlockchain [LawfulStorage P S] {s : S} {genesis : Block} {g : Header}
    {fuel : ℕ} {bc : Blockchain E S} (hstore : InPlace P s) (hg : genesis.header = some g)
    (hzero : g.height = 0) (hnew : newBlockchain P fuel genesis s = .ok bc) :
    HeightsInOrder bc.headers := by
  have hfits := (Grounded.of_newBlockchain hstore hg hzero hnew).tip.fits
  rcases newBlockchain_cases hg hnew with ⟨hheaders, -⟩ | ⟨b, -, hload, -⟩
  · rw [hheaders, ← List.nil_append [g]]
    refine HeightsInOrder.concat (fun i h hget => ?_) ?_
    · rw [List.getElem?_nil] at hget
      exact nomatch hget
    rw [hzero]
    rfl
  · obtain ⟨hs, hheaders, hloaded, -⟩ := loadHeaders_inPlace hstore hload
    rw [List.nil_append] at hheaders
    intro i h hget
    rw [hheaders] at hget hfits
    obtain ⟨hheight, -⟩ := hloaded i h hget
    have hlt := (List.getElem?_eq_some_iff.mp hget).1
    rw [hheight, UInt32.zero_add, UInt32.toNat_ofNat', Nat.mod_eq_of_lt (by omega)]

/-- **On every chain that a process can hold each header stands at the height of its position.** -/
theorem Reached.heightsInOrder [LawfulStorage P S] {bc : Blockchain E S} (hbc : Reached P bc) :
    HeightsInOrder bc.headers := by
  induction hbc with
  | opened empty header first new => exact .of_newBlockchain (.of_empty empty) header first new
  | @used bc bc' u o past use ih =>
    cases u with
    | setConsensus e =>
      obtain ⟨-, rfl⟩ := use
      exact ih
    | addBlock b =>
      obtain ⟨fuel, hcall⟩ := use
      have htip := past.grounded.tip
      cases AddStep.of_call hcall with
      | invalid _ _ => exact ih
      | aborted _ _ _ => exact ih
      | crashed valid _ _ => exact ih.concat (valid.extends htip.pos htip.fits).2.1
      | appended valid _ _ _ => exact ih.concat (valid.extends htip.pos htip.fits).2.1
  | reopened past header first new _ => exact .of_newBlockchain past.grounded.store header first new

/-- Every one of them has an accumulator. -/
theorem Reached.isSome_totalDifficulty {bc : Blockchain E S} (hbc : Reached P bc) :
    bc.totalDifficulty.isSome = true := by
  induction hbc with
  | opened _ _ _ new =>
    rw [totalDifficulty_newBlockchain new]
    rfl
  | used _ use ih => rw [use.isSome_totalDifficulty, ih]
  | reopened _ _ _ new =>
    rw [totalDifficulty_newBlockchain new]
    rfl

theorem Reached.of_run {bc bc' : Blockchain E S} {es : List (Block × Outcome Err Unit)}
    (hbc : Reached P bc) (hrun : History (Succeeded P) bc es bc') : Reached P bc' := by
  refine hrun.invariant (Reached P) hbc ?_
  rintro bc b o bc' hbc ⟨-, hcall⟩
  have hused : Used P bc (.addBlock b) o bc' := hcall
  exact hbc.used hused

theorem reached_sampleChain : sampleChain.Reached .sample :=
  .opened (fun i => ⟨.blockNotFound i, rfl⟩) rfl rfl newBlockchain_sampleChain

end Blockchain

namespace Node

variable {E S : Type} {P : Primitives} [ConsensusEngine P E] [Storage P S] {C : Codecs}

/-! ### A node's own blocks -/

/-- `ProcessTransaction` of some node has let the transaction into its pool. -/
def Passed (P : Primitives) (tx : Transaction) : Prop :=
  ∃ (E S : Type) (n n' : Node E S) (given : Transaction) (now : Int64),
    ¬ n.memPool.contains (given.hash P) ∧ processTransaction P given now n = (.ok (), n') ∧
      tx = given.seenAt P now

theorem Passed.verify {tx : Transaction} (htx : Passed P tx) : tx.verify P = .ok () := by
  obtain ⟨E, S, n, n', given, now, habsent, hcall, rfl⟩ := htx
  unfold processTransaction at hcall
  rw [Act.get_bind_apply, if_neg habsent] at hcall
  obtain ⟨_, hverify, -⟩ := Act.lift_bind_eq_ok.mp hcall
  exact hverify

/-- **A node's own block is valid** on the chain it was made for, with proof of work or without an
engine, as long as there is a height left. -/
theorem own_block_valid [LawfulStorage P S] (hP : P.CorrectSignature) {bc : Blockchain PoWEngine S}
    (hbc : Blockchain.Reached P bc) (hheight : bc.height.toNat < 2 ^ 32 - 1)
    {txx : List Transaction} (htxx : ∀ tx ∈ txx, Passed P tx) {key : PrivateKey} {tick : Tick}
    {b : Block} (hb : bc.assembleBlock P key txx tick = .ok b) :
    (Blockchain.validateBlockLocked P b bc).1 = .ok () := by
  have htip := hbc.grounded.tip
  obtain ⟨current, h, hassembled⟩ := Blockchain.assembleBlock_spec hb
  have hroom : bc.headers.length < 2 ^ 32 := by
    have hlast := Blockchain.toNat_heightLocked htip.pos htip.fits
    have hpos := htip.pos
    unfold Blockchain.height at hheight
    omega
  exact hassembled.valid hP htip hroom (fun tx hmem => (htxx tx hmem).verify)
    hassembled.verifyConsensus_pow

/-! ### What a run keeps -/

/-- Every pending transaction verifies, and the chain can be extended. -/
structure Healthy (P : Primitives) (n : Node E S) : Prop where
  verified : ∀ tx ∈ n.memPool.pending.txx, tx.verify P = .ok ()
  chain : n.chain.Extendable

theorem Healthy.step [SealingEngine P E] {n n' : Node E S} {i : Input} (hn : n.Healthy P)
    (hstep : Handling P n i n') : n'.Healthy P := by
  cases hstep with
  | transaction _ admission =>
    exact ⟨admission.verified hn.verified, by rw [admission.chain]; exact hn.chain⟩
  | blocks quiet =>
    refine ⟨?_, quiet.chain.invariant _ hn.chain fun _ hbc hcall => hbc.called hcall⟩
    rw [quiet.memPool]
    exact hn.verified
  | refused _ _ call _ memPool _ =>
    refine ⟨?_, hn.chain.called call⟩
    rw [memPool]
    exact hn.verified
  | proposed _ _ added cleared _ =>
    refine ⟨fun tx hmem => ?_, hn.chain.called added⟩
    rw [cleared] at hmem
    exact absurd hmem List.not_mem_nil

/-- A new node, on a store that holds a chain or nothing. -/
theorem Healthy.of_newServer {fuel : ℕ} {opts : ServerOpts E S} {hs : List Header} {n : Node E S}
    (hstore : Holds P opts.storage hs) (hsize : hs.length < 2 ^ 32)
    (horder : Blockchain.HeightsInOrder hs) (hnew : newServer P fuel opts = .ok n) :
    n.Healthy P := by
  obtain ⟨bc, hbc, hn⟩ := Outcome.bind_eq_ok.mp hnew
  obtain rfl := Outcome.ok.inj hn
  have hextendable := Blockchain.Extendable.of_newBlockchain hstore hsize horder rfl rfl hbc
  refine ⟨fun tx hmem => absurd hmem List.not_mem_nil, ?_⟩
  -- installing an engine leaves headers and accumulator alone
  cases opts.consensus with
  | none => exact hextendable
  | some e => exact ⟨hextendable.tip.of_headers rfl, hextendable.weighs⟩

theorem healthy_of_run [SealingEngine P E] {fuel : ℕ} {opts : ServerOpts E S} {hs : List Header}
    {n₀ n : Node E S} {es : List (Input × Outcome Err Unit)} (hstore : Holds P opts.storage hs)
    (hsize : hs.length < 2 ^ 32) (horder : Blockchain.HeightsInOrder hs)
    (hnew : newServer P fuel opts = .ok n₀) (hrun : History (Handled P C) n₀ es n) :
    n.Healthy P :=
  (invariant_of_run hrun id (sound_newServer hnew)
    (Healthy.of_newServer hstore hsize horder hnew) fun hn _ hstep => hn.step hstep).2

/-! ### Making a block -/

/-- A block that was made leads to `ClearPending` exactly when the chain takes it. -/
theorem createNewBlock_clears_iff [SealingEngine P E] {n : Node E S} {key : PrivateKey}
    {tick : Tick} {b : Block} {fuel : ℕ}
    (hb : n.chain.assembleBlock P key n.memPool.pending.txx tick = .ok b) :
    (∃ n', createNewBlock P fuel key tick n = (.ok (), n') ∧ n'.memPool.pending = .new) ↔
      (Blockchain.addBlock P fuel b n.chain).1 = .ok () := by
  rw [createNewBlock_of_assembled fuel hb]
  rcases hadd : Blockchain.addBlock P fuel b n.chain with ⟨o, bc⟩
  have hon := onChain_apply hadd
  constructor
  · rintro ⟨n', hcall, -⟩
    obtain ⟨_, _, hfirst, -⟩ := Act.bind_eq_ok.mp hcall
    rw [hon] at hfirst
    exact congrArg Prod.fst hfirst
  · rintro rfl
    rw [Act.bind_apply_ok hon]
    exact ⟨_, rfl, rfl⟩

/-- **When block production goes on.** The node was started on a store that holds a chain or nothing
and has been driven by any calls since. A block that was prepared, sealed and signed gets onto the
chain, and the pending transactions are cleared, exactly when there is a height left, every pending
transaction executes when its turn comes, and no engine is installed or a proof of work that asks
for at most 256 bits. Nothing in `ProcessTransaction` sees to the second. -/
theorem createNewBlock_succeeds_iff [LawfulStorage P S] (hP : P.CorrectSignature)
    (k : ConsensusType) {fuel : ℕ} {opts : ServerOpts k.Engine S} {hs : List Header}
    {n₀ n : Node k.Engine S} {es : List (Input × Outcome Err Unit)} {key : PrivateKey} {tick : Tick}
    {b : Block} (hstore : Holds P opts.storage hs) (hsize : hs.length < 2 ^ 32)
    (horder : Blockchain.HeightsInOrder hs) (hnew : newServer P fuel opts = .ok n₀)
    (hrun : History (Handled P C) n₀ es n)
    (hb : n.chain.assembleBlock P key n.memPool.pending.txx tick = .ok b) :
    (∃ fuel' n', createNewBlock P fuel' key tick n = (.ok (), n') ∧
        n'.memPool.pending = .new) ↔
      n.chain.headers.length < 2 ^ 32 ∧
        (∃ fuel', (executeTransactions P fuel' n.memPool.pending.txx n.chain.worldState).1 =
          .ok ()) ∧
        ∀ e, n.chain.consensus = some e → ∃ d, k.targetDifficulty e = some d ∧ d.toNat ≤ 256 := by
  obtain ⟨hverified, htip, hweighs⟩ := healthy_of_run hstore hsize horder hnew hrun
  obtain ⟨current, h, hassembled⟩ := Blockchain.assembleBlock_spec hb
  have haccepted := Blockchain.addBlock_assembled_iff k hassembled hP htip hverified
  simp only [createNewBlock_clears_iff hb, haccepted, hweighs, true_and]

/-! ### A transaction that stays -/

/-- The node that has been sent one transaction. -/
def pendingNode (tx : Transaction) : Node PoWEngine MemoryStore :=
  { sampleNode with
    memPool :=
      { sampleNode.memPool with
        all := sampleNode.memPool.all.add .sample (tx.seenAt .sample 0)
        pending := sampleNode.memPool.pending.add .sample (tx.seenAt .sample 0) }
    launched := [.transaction (tx.seenAt .sample 0)] }

def sampleTick : Tick := ⟨0, fun _ => false, 0, 0⟩

/-- The first block of a new node, with a transaction that the node has let in. -/
theorem own_block_valid_sampleTransfer :
    ∃ b, sampleNode.chain.assembleBlock .sample sampleKey
        [(sampleTransfer 0 0).seenAt .sample 0] sampleTick = .ok b ∧
      (Blockchain.validateBlockLocked .sample b sampleNode.chain).1 = .ok () := by
  have hempty : ∀ i, ∃ e, Storage.get Primitives.sample MemoryStore.new i = .err e :=
    fun i => Blockchain.holds_empty.missing i (Nat.zero_le _)
  have hreached : Blockchain.Reached .sample sampleNode.chain :=
    .opened hempty rfl rfl Blockchain.newBlockchain_sampleChain
  have hpassed : ∀ tx ∈ [(sampleTransfer 0 0).seenAt .sample 0], Passed .sample tx := by
    intro tx hmem
    rw [List.mem_singleton] at hmem
    exact ⟨_, _, sampleNode, _, sampleTransfer 0 0, 0, by decide, rfl, hmem⟩
  exact ⟨_, rfl, own_block_valid sample_idealSignature.correct hreached (by decide) hpassed rfl⟩

/-- The criterion for a node whose one pending transaction moves nothing. -/
theorem createNewBlock_succeeds_iff_sampleTransfer :
    (∃ fuel n', createNewBlock .sample fuel sampleKey sampleTick
        (pendingNode (sampleTransfer 0 0)) = (.ok (), n') ∧ n'.memPool.pending = .new) ↔
      (pendingNode (sampleTransfer 0 0)).chain.headers.length < 2 ^ 32 ∧
        (∃ fuel, (executeTransactions .sample fuel
          (pendingNode (sampleTransfer 0 0)).memPool.pending.txx
          (pendingNode (sampleTransfer 0 0)).chain.worldState).1 = .ok ()) ∧
        ∀ e, (pendingNode (sampleTransfer 0 0)).chain.consensus = some e →
          ∃ d, ConsensusType.pow.targetDifficulty e = some d ∧ d.toNat ≤ 256 := by
  have hrun : History (Handled .sample noContent) sampleNode
      [(.submitted (sampleTransfer 0 0) 0, .ok ())] (pendingNode (sampleTransfer 0 0)) :=
    .call .start ⟨0, rfl⟩
  exact createNewBlock_succeeds_iff sample_idealSignature.correct .pow Blockchain.holds_empty
    (by norm_num) (fun i h hh => absurd hh (by simp)) newServer_sampleNode hrun rfl

/-- What a transaction that cannot be executed does to the block that has it. -/
theorem createNewBlock_of_stopped [SealingEngine P E] [LawfulSealing P E] (hP : P.CorrectSignature)
    {n : Node E S} (hn : n.Healthy P) (hnone : n.chain.consensus = none)
    (hroom : n.chain.headers.length < 2 ^ 32) {key : PrivateKey} {tick : Tick} {b : Block}
    (hb : n.chain.assembleBlock P key n.memPool.pending.txx tick = .ok b) {fuel : ℕ}
    {o : Outcome Err Unit} {ws : WorldState}
    (hexec : executeTransactions P fuel n.memPool.pending.txx n.chain.worldState = (o, ws))
    (hstop : ∀ u, o ≠ .ok u) :
    createNewBlock P fuel key tick n =
      (o, { n with chain := { n.chain with worldState := ws } }) := by
  obtain ⟨current, h, hassembled⟩ := Blockchain.assembleBlock_spec hb
  have hvalidate := hassembled.valid hP hn.chain.tip hroom hn.verified
    (Blockchain.verifyConsensus_none hnone h)
  obtain ⟨c', hengine⟩ := Blockchain.validateBlockLocked_moves (P := P) b n.chain
  have hpair : Blockchain.validateBlockLocked P b n.chain =
      (.ok (), { n.chain with consensus := c' }) := Prod.ext hvalidate hengine
  obtain ⟨h', valid, -⟩ := Blockchain.validateBlockLocked_eq_ok hpair
  obtain rfl : c' = n.chain.consensus := (valid.consensus_of_none hnone).trans hnone.symm
  rw [← hassembled.transactions] at hexec
  have hon := onChain_apply (Blockchain.addBlock_of_stopped valid hexec hstop)
  rw [createNewBlock_of_assembled fuel hb]
  exact Act.bind_apply_stop hon hstop _

/-- **Production stops.** A transfer of 9 from an account that does not exist is admitted. Whatever
the tick, the block is prepared, sealed and signed, and `AddBlock` returns the error of the
transfer. The node is left as it was, so the next call fails in the same way. -/
theorem createNewBlock_blocked :
    newServer .sample 1 sampleOpts = .ok sampleNode ∧
      processTransaction .sample (sampleTransfer 9 0) 0 sampleNode =
        (.ok (), pendingNode (sampleTransfer 9 0)) ∧
      ∀ tick, (∃ b, (pendingNode (sampleTransfer 9 0)).chain.assembleBlock .sample sampleKey
          (pendingNode (sampleTransfer 9 0)).memPool.pending.txx tick = .ok b) ∧
        ∀ fuel, ∃ src, createNewBlock .sample (fuel + 1) sampleKey tick
            (pendingNode (sampleTransfer 9 0)) =
          (.err (.transferFailed (.senderMissing src)), pendingNode (sampleTransfer 9 0)) := by
  have hrun : History (Handled .sample noContent) sampleNode
      [(.submitted (sampleTransfer 9 0) 0, .ok ())] (pendingNode (sampleTransfer 9 0)) :=
    .call .start ⟨0, rfl⟩
  have hhealthy := healthy_of_run Blockchain.holds_empty (by norm_num)
    (fun i h hh => absurd hh (by simp)) newServer_sampleNode hrun
  refine ⟨newServer_sampleNode, rfl, fun tick => ⟨⟨_, rfl⟩, fun fuel => ?_⟩⟩
  -- the transfer is refused before it has written anything
  obtain ⟨src, hexec⟩ : ∃ src, executeTransactions .sample (fuel + 1)
      (pendingNode (sampleTransfer 9 0)).memPool.pending.txx
      (pendingNode (sampleTransfer 9 0)).chain.worldState =
        (.err (.transferFailed (.senderMissing src)),
          (pendingNode (sampleTransfer 9 0)).chain.worldState) := ⟨_, rfl⟩
  have hroom : (pendingNode (sampleTransfer 9 0)).chain.headers.length < 2 ^ 32 :=
    Nat.one_lt_two_pow (by norm_num)
  exact ⟨src, createNewBlock_of_stopped sample_idealSignature.correct hhealthy rfl hroom rfl hexec
    fun _ herr => nomatch herr⟩

end Node

end Blockz
