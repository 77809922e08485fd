import Blockz.Chain.Production
import Blockz.Chain.Simulation
import Blockz.Chain.Supply
import Blockz.Core.DataHash
import Blockz.Core.StateHistory

/-!
# What a header says about the state

The field `StateRoot` of a header is documented as the root of the world state after the block. No
function of the repository computes it for a header, and none compares it. Production leaves the
zero hash, so a block of a node's own is never right (`stateRoot_of_assembled`). `AddBlock` does not
depend on the field: a block that is accepted is accepted with every other root, once it has been
sealed and signed again, and leaves the same state (`addBlock_reissue`). Of all these roots at most
one is the root of the state.

That nodes with the same headers have the same state does not rest on the field either. It rests on
`DataHash`: if the two nodes started with the same state and no block stopped half way on either,
then the headers determine the transactions that were executed, and these the state
(`worldState_eq_of_runs`).

* `Applies` — what a block does to the world state, seen without the chain.
* `applied_of_run` — a run of `AddBlock` as a history of `Applies`, under the headers that it
  appends.
-/

namespace Blockz

open Effect

/-- The header with another root, and a nonce under which it can be sealed. -/
def Header.reroot (h : Header) (root : Hash) (nonce : UInt64) : Header :=
  { h with stateRoot := root, nonce := nonce }

/-- The block with another header, signed by `key`. -/
def Block.reissue (b : Block) (h : Header) (key : PublicKey) (sig : Signature) : Block :=
  { b with header := some h, validator := key, signature := some sig }

namespace Blockchain

open WorldState

variable {E S : Type} {P : Primitives} {gob : AccountEncoder}

/-- Every evaluation of `StateRoot` on the state returns `root`. -/
def Commits (P : Primitives) (gob : AccountEncoder) (root : Hash) (ws : WorldState) : Prop :=
  ∀ walk, ws.stateRoot P gob walk = root

theorem Commits.unique {root root' : Hash} {ws : WorldState} (h : Commits P gob root ws)
    (h' : Commits P gob root' ws) : root = root' := by
  obtain ⟨walk⟩ := Walk.nonempty ws.accounts
  exact (h walk).symm.trans (h' walk)

/-! ### Blocks that nodes make -/

/-- A block that a node has made itself is right only where SHA-256 yields the zero hash. -/
theorem stateRoot_of_assembled [SealingEngine P E] {maker : Blockchain E S} {key : PrivateKey}
    {txx : List Transaction} {tick : Tick} {made : Block} {h : Header}
    (hmade : assembleBlock P maker key txx tick = .ok made) (hh : made.header = some h)
    (ws : WorldState) (walk : Walk ws.accounts) :
    ws.stateRoot P gob walk = h.stateRoot ↔ P.sha256 (combined gob walk) = Hash.zero := by
  obtain ⟨h', hh', hzero⟩ := assembleBlock_stateRoot hmade
  obtain rfl : h = h' := Option.some.inj (hh.symm.trans hh')
  rw [hzero]
  rfl

/-! ### The field is not read -/

section Reissue

variable [ConsensusEngine P E]

/-- Validation does not look at the root, apart from the seal and the signature. -/
theorem Valid.reissue {bc : Blockchain E S} {b : Block} {h : Header} {c' : Option E} {root : Hash}
    {nonce : UInt64} {key : PublicKey} {sig : Signature} (valid : Valid P bc b h c')
    (hseal : (verifyConsensus P (h.reroot root nonce) bc).1 = .ok ())
    (hsig : sig.verify P key ((h.reroot root nonce).bytes P) = .ok true) :
    ∃ c'', Valid P bc (b.reissue (h.reroot root nonce) key sig) (h.reroot root nonce) c'' := by
  -- the engine may come out in another state than for `h`; nothing else is written
  obtain ⟨c'', hengine⟩ := verifyConsensus_moves (P := P) (h.reroot root nonce) bc
  obtain ⟨-, h', -, hh', -, htx, hdata⟩ := Block.verify_eq_ok valid.verify
  obtain rfl : h = h' := Option.some.inj (valid.header.symm.trans hh')
  refine ⟨c'', rfl, ?_, ?_, Block.verify_of_checks rfl rfl hsig htx hdata⟩
  · -- height and link are those of `h`
    have hposition := checkPosition_eq_ok.mp valid.position
    exact checkPosition_eq_ok.mpr hposition
  · rw [← hengine]
    exact Act.eq_mk_of_fst hseal

end Reissue

/-- What a successful call leaves. -/
theorem worldState_of_addBlock [ConsensusEngine P E] [Storage P S] {fuel : ℕ} {b : Block}
    {bc bc' : Blockchain E S} {h : Header} (hok : addBlock P fuel b bc = (.ok (), bc'))
    (hh : b.header = some h) :
    ∃ ws, executeTransactions P fuel b.transactions bc.worldState = (.ok (), ws) ∧
      bc'.worldState = ws.addBalance h.coinbase blockReward := by
  obtain ⟨h', c', ws, total, s, valid, executed, -, -, rfl⟩ := addBlock_eq_ok hok
  obtain rfl : h = h' := Option.some.inj (hh.symm.trans valid.header)
  exact ⟨ws, executed, rfl⟩

/-- A block without transactions pays the reward. -/
theorem worldState_of_empty [ConsensusEngine P E] [Storage P S] {fuel : ℕ} {b : Block}
    {bc bc' : Blockchain E S} {h : Header} (hok : addBlock P fuel b bc = (.ok (), bc'))
    (hh : b.header = some h) (hempty : b.transactions = []) :
    bc'.worldState = bc.worldState.addBalance h.coinbase blockReward := by
  obtain ⟨ws, executed, hws⟩ := worldState_of_addBlock hok hh
  rw [hempty] at executed
  obtain rfl : bc.worldState = ws := (Prod.mk.inj executed).2
  exact hws

/-- **`AddBlock` does not depend on the root.** The block is accepted under another one too, by
either engine and without one, and leaves the same world state. -/
theorem addBlock_reissue (k : ConsensusType) [Storage P S] {fuel : ℕ} {b : Block}
    {bc bc' : Blockchain k.Engine S} {h : Header} {root : Hash} {nonce : UInt64} {key : PublicKey}
    {sig : Signature} (hok : addBlock P fuel b bc = (.ok (), bc')) (hh : b.header = some h)
    (hseal : (verifyConsensus P (h.reroot root nonce) bc).1 = .ok ())
    (hsig : sig.verify P key ((h.reroot root nonce).bytes P) = .ok true)
    (hput : (Storage.put P (b.reissue (h.reroot root nonce) key sig) bc.store).1 = .ok ()) :
    ∃ bc'', addBlock P fuel (b.reissue (h.reroot root nonce) key sig) bc = (.ok (), bc'') ∧
      bc''.worldState = bc'.worldState := by
  obtain ⟨h', c', ws, total, s, valid, executed, weight, put, hbc⟩ := addBlock_eq_ok hok
  obtain rfl : h = h' := Option.some.inj (hh.symm.trans valid.header)
  obtain ⟨c'', valid'⟩ := valid.reissue hseal hsig
  have hexec : (executeTransactions P fuel b.transactions bc.worldState).1 = .ok () := by
    rw [executed]
  have ready : Ready P fuel bc b h := by
    refine ⟨hh, ?_, hexec, ?_⟩
    · rw [valid.validate]
    · rw [put]
      trivial
  have ready' :
      Ready P fuel bc (b.reissue (h.reroot root nonce) key sig) (h.reroot root nonce) := by
    refine ⟨rfl, ?_, hexec, ?_⟩
    · rw [valid'.validate]
    · rw [hput]
      trivial
  -- whether there is a weight to add depends on the difficulty, and that is the same
  have happends : Appends P fuel bc b h := by
    refine ⟨?_, ?_⟩
    · rw [hok, put]
    · rw [hok, hbc]
      rfl
  obtain ⟨hcall, -⟩ := (ready'.appends_iff_engine k).mpr ((ready.appends_iff_engine k).mp happends)
  have hok' := Act.eq_mk_of_fst (hcall.trans hput)
  refine ⟨_, hok', ?_⟩
  obtain ⟨ws', executed', hws'⟩ := worldState_of_addBlock hok' rfl
  obtain rfl : ws = ws' := (Prod.mk.inj (executed.symm.trans executed')).2
  rw [hws', hbc]
  rfl

/-! ### What the headers determine -/

/-- One of the blocks `bs`, with the header `h`, takes `ws` to `ws'`. -/
def Applies (P : Primitives) (bs : Set Block) (ws : WorldState) (b : Block) (h : Header)
    (ws' : WorldState) : Prop :=
  b ∈ bs ∧ b.header = some h ∧ b.verify P = .ok () ∧
    ∃ fuel ws₁, executeTransactions P fuel b.transactions ws = (.ok (), ws₁) ∧
      ws' = ws₁.addBalance h.coinbase blockReward

/-- The header decides what a block does. -/
theorem Applies.unique {bs : Set Block} (hbinds : BindsTransactions P bs)
    {ws ws' ws'' : WorldState} {b b' : Block} {h : Header} (happly : Applies P bs ws b h ws')
    (happly' : Applies P bs ws b' h ws'') : ws' = ws'' := by
  obtain ⟨hb, hh, hverify, fuel, ws₁, executed, rfl⟩ := happly
  obtain ⟨hb', hh', hverify', fuel', ws₂, executed', rfl⟩ := happly'
  have hsame := hbinds b hb b' hb' hverify hverify' (by rw [hh, hh'])
  rw [executeTransactions_unique hsame executed executed']

section Runs

variable [ConsensusEngine P E] [Storage P S]

/-- A call that no transaction has ended: the validator refuses the block, or the loop over its
transactions runs through. -/
def RanThrough (P : Primitives) [ConsensusEngine P E] [Storage P S] (bc : Blockchain E S)
    (b : Block) (o : Outcome Err Unit) (bc' : Blockchain E S) : Prop :=
  ∃ fuel, addBlock P fuel b bc = (o, bc') ∧
    ((validateBlockLocked P b bc).1 ≠ .ok () ∨
      (executeTransactions P fuel b.transactions bc.worldState).1 = .ok ())

theorem RanThrough.of_ok {fuel : ℕ} {bc bc' : Blockchain E S} {b : Block}
    (hok : addBlock P fuel b bc = (.ok (), bc')) : RanThrough P bc b (.ok ()) bc' := by
  obtain ⟨_, _, _, _, _, _, executed, -⟩ := addBlock_eq_ok hok
  refine ⟨fuel, hok, Or.inr ?_⟩
  rw [executed]

/-- Such a call leaves headers and state, or appends a header and applies its block. -/
theorem RanThrough.applies {bc bc' : Blockchain E S} {b : Block} {o : Outcome Err Unit}
    {bs : Set Block} (hcall : RanThrough P bc b o bc') (hb : b ∈ bs) :
    bc'.headers = bc.headers ∧ bc'.worldState = bc.worldState ∨
      ∃ h, bc'.headers = bc.headers ++ [h] ∧ Applies P bs bc.worldState b h bc'.worldState := by
  obtain ⟨fuel, hcall, hthrough⟩ := hcall
  cases AddStep.of_call hcall with
  | invalid _ _ => exact Or.inl ⟨rfl, rfl⟩
  | aborted valid executed stop =>
    -- a transaction has ended the call, and this is excluded
    rcases hthrough with hrefused | hran
    · rw [valid.validate] at hrefused
      exact absurd rfl hrefused
    · rw [executed] at hran
      exact absurd hran (stop ())
  | crashed valid executed _ =>
    -- header and state are written when the weight panics
    exact Or.inr ⟨_, rfl, hb, valid.header, valid.verify, fuel, _, executed, rfl⟩
  | appended valid executed _ _ =>
    exact Or.inr ⟨_, rfl, hb, valid.header, valid.verify, fuel, _, executed, rfl⟩

/-- **The world state of a run**, as a history over the headers that the run appends. -/
theorem applied_of_run {bc₀ bc : Blockchain E S} {es : List (Block × Outcome Err Unit)}
    {bs : Set Block} (hrun : History (RanThrough P) bc₀ es bc) (hbs : ∀ e ∈ es, e.1 ∈ bs) :
    ∃ applied : List (Block × Header), bc.headers = bc₀.headers ++ applied.map Prod.snd ∧
      History (Applies P bs) bc₀.worldState applied bc.worldState := by
  induction hrun with
  | start => exact ⟨[], (List.append_nil _).symm, .start⟩
  | @call es bc bc' b o past last ih =>
    obtain ⟨applied, hheaders, happlied⟩ := ih fun e he => hbs e (List.mem_append_left _ he)
    rcases last.applies (hbs (b, o) (by simp)) with ⟨hsame, hws⟩ | ⟨h, happend, happly⟩
    · exact ⟨applied, hsame.trans hheaders, hws ▸ happlied⟩
    · refine ⟨applied ++ [(b, h)], ?_, happlied.call happly⟩
      rw [happend, hheaders, List.map_append, List.append_assoc]
      rfl

/-- **Equal headers, equal states.** The roots in the headers play no part. -/
theorem worldState_eq_of_runs {bc₀ bc₀' bc bc' : Blockchain E S}
    {es es' : List (Block × Outcome Err Unit)} {bs : Set Block} (hbinds : BindsTransactions P bs)
    (hbs : ∀ e ∈ es ++ es', e.1 ∈ bs) (hlength : bc₀.headers.length = bc₀'.headers.length)
    (hstart : bc₀.worldState = bc₀'.worldState) (hrun : History (RanThrough P) bc₀ es bc)
    (hrun' : History (RanThrough P) bc₀' es' bc') (hheaders : bc.headers = bc'.headers) :
    bc.worldState = bc'.worldState := by
  obtain ⟨applied, happend, happlied⟩ :=
    applied_of_run hrun fun e he => hbs e (List.mem_append_left _ he)
  obtain ⟨applied', happend', happlied'⟩ :=
    applied_of_run hrun' fun e he => hbs e (List.mem_append_right _ he)
  -- the runs have appended the same headers, though not by the same calls
  rw [happend, happend'] at hheaders
  obtain ⟨-, hsame⟩ := List.append_inj hheaders hlength
  have hmatch : List.Forall₂ (fun e e' : Block × Header => e.2 = e'.2) applied applied' := by
    have hall : List.Forall₂ Eq (applied.map Prod.snd) (applied'.map Prod.snd) := by
      rw [List.forall₂_eq_eq_eq]
      exact hsame
    exact List.forall₂_map_right_iff.mp (List.forall₂_map_left_iff.mp hall)
  rw [← hstart] at happlied'
  refine happlied.agree happlied' hmatch fun hh happly happly' => ?_
  rw [← hh] at happly'
  exact happly.unique hbinds happly'

end Runs

/-- **What `StateRoot` is worth.** A block that a node has made carries no root of any state, unless
SHA-256 yields the zero hash. A block without transactions is right exactly if it carries the root
of the state before it with the reward added. A block that is accepted is accepted with every other
root, with the same effect, and at most one of these roots is that of the state. Nodes that started
alike and have the same headers have the same state, whatever the roots are, if no transaction has
ended a call. -/
theorem stateRoot_unread [ConsensusEngine P E] [SealingEngine P E] [Storage P S] :
    (∀ {maker : Blockchain E S} {key : PrivateKey} {txx : List Transaction} {tick : Tick}
        {made : Block} {h : Header},
        assembleBlock P maker key txx tick = .ok made → made.header = some h →
        ∀ (ws : WorldState) (walk : Walk ws.accounts),
          ws.stateRoot P gob walk = h.stateRoot ↔ P.sha256 (combined gob walk) = Hash.zero) ∧
      (∀ {fuel : ℕ} {b : Block} {bc bc' : Blockchain E S} {h : Header},
        addBlock P fuel b bc = (.ok (), bc') → b.header = some h → b.transactions = [] →
        (Commits P gob h.stateRoot bc'.worldState ↔
          Commits P gob h.stateRoot (bc.worldState.addBalance h.coinbase blockReward))) ∧
      (∀ (k : ConsensusType) {fuel : ℕ} {b : Block} {bc bc' : Blockchain k.Engine S} {h : Header}
        {root : Hash} {nonce : UInt64} {key : PublicKey} {sig : Signature},
        addBlock P fuel b bc = (.ok (), bc') → b.header = some h →
        (verifyConsensus P (h.reroot root nonce) bc).1 = .ok () →
        sig.verify P key ((h.reroot root nonce).bytes P) = .ok true →
        (Storage.put P (b.reissue (h.reroot root nonce) key sig) bc.store).1 = .ok () →
        ∃ bc'', addBlock P fuel (b.reissue (h.reroot root nonce) key sig) bc = (.ok (), bc'') ∧
          bc''.worldState = bc'.worldState ∧
          (Commits P gob h.stateRoot bc'.worldState → Commits P gob root bc''.worldState →
            root = h.stateRoot)) ∧
      ∀ {bc₀ bc₀' bc bc' : Blockchain E S} {es es' : List (Block × Outcome Err Unit)},
        BindsTransactions P {b | b ∈ (es ++ es').map Prod.fst} →
        bc₀.headers.length = bc₀'.headers.length → bc₀.worldState = bc₀'.worldState →
        History (RanThrough P) bc₀ es bc → History (RanThrough P) bc₀' es' bc' →
        bc.headers = bc'.headers → bc.worldState = bc'.worldState := by
  refine ⟨fun hmade hh ws walk => stateRoot_of_assembled hmade hh ws walk, ?_, ?_, ?_⟩
  · intro fuel b bc bc' h hok hh hempty
    rw [worldState_of_empty hok hh hempty]
  · intro k fuel b bc bc' h root nonce key sig hok hh hseal hsig hput
    obtain ⟨bc'', hok', hws⟩ := addBlock_reissue k hok hh hseal hsig hput
    refine ⟨bc'', hok', hws, fun hcommits hcommits' => ?_⟩
    rw [hws] at hcommits'
    exact hcommits'.unique hcommits
  · intro bc₀ bc₀' bc bc' es es' hbinds hlength hstart hrun hrun' hheaders
    exact worldState_eq_of_runs hbinds (fun e he => List.mem_map_of_mem he) hlength hstart hrun
      hrun' hheaders

/-! ### A header with its root, and headers without -/

/-- The state after a first block that pays its reward to `a`. -/
def fundedState (a : Address) : WorldState := WorldState.new.addBalance a blockReward

theorem lookup_fundedState {a addr : Address} {acc : Account}
    (h : (fundedState a).accounts.lookup addr = some acc) : acc = newAccount blockReward := by
  unfold fundedState addBalance at h
  rw [lookup_updateAccount] at h
  split at h
  · exact (Option.some.inj h).symm
  · exact absurd h (by simp [WorldState.new])

def fundedWalk (a : Address) : Walk (fundedState a).accounts where
  addrs := [a]
  addrs_eq := rfl
  entries _ := []
  lists _ _ h := by
    rw [lookup_fundedState h]
    rfl

theorem combined_fundedState {a : Address} (walk : Walk (fundedState a).accounts) :
    combined sampleEncoder walk = combined sampleEncoder (fundedWalk a) := by
  refine combined_congr fun addr hmem => ?_
  obtain ⟨acc, hacc⟩ := Finmap.mem_iff.mp hmem
  refine contribution_congr walk (fundedWalk a) hacc fun _ => ?_
  rw [lookup_fundedState hacc]
  exact Nat.zero_le 1

theorem commits_fundedState (a : Address) :
    Commits .sample sampleEncoder
      ((fundedState a).stateRoot .sample sampleEncoder (fundedWalk a)) (fundedState a) :=
  fun walk => congrArg sampleDigest (combined_fundedState walk)

/-- The header of `minedBlock`, with the root of the state that the reward makes. -/
def foretellingHeader : Header :=
  (sampleHeader sampleGenesis [] (sampleAddress 1)).reroot
    ((fundedState (sampleAddress 1)).stateRoot .sample sampleEncoder
      (fundedWalk (sampleAddress 1))) 0

def foretellingBlock : Block :=
  minedBlock.reissue foretellingHeader sampleKey.publicKey
    (sampleSignature (foretellingHeader.bytes .sample))

/-- The block that a miner makes of no transactions is accepted. -/
theorem exists_made :
    ∃ (made : Block) (h : Header) (bc' : Blockchain PoWEngine MemoryStore),
      assembleBlock .sample minedChain sampleKey [] ⟨0, fun _ => false, 9, 0⟩ = .ok made ∧
      made.header = some h ∧ addBlock .sample 1 made minedChain = (.ok (), bc') ∧
      bc'.worldState = fundedState (sampleKey.key.publicKey.address .sample) := by
  have hrun : (assembleBlock .sample minedChain sampleKey [] ⟨0, fun _ => false, 9, 0⟩ >>=
      fun made => (addBlock .sample 1 made minedChain).1 >>= fun _ =>
        .ok (made.transactions, made.header.map Header.coinbase)) =
      .ok ([], some (sampleKey.key.publicKey.address .sample)) := by decide +kernel
  obtain ⟨made, hmade, hrun⟩ := Outcome.bind_eq_ok.mp hrun
  obtain ⟨_, hok, hrun⟩ := Outcome.bind_eq_ok.mp hrun
  obtain ⟨hempty, hcoinbase⟩ := Prod.mk.inj (Outcome.ok.inj hrun)
  obtain ⟨h, hh, hpaid⟩ := Option.map_eq_some_iff.mp hcoinbase
  refine ⟨made, h, _, hmade, hh, Act.eq_mk_of_fst hok, ?_⟩
  rw [worldState_of_empty (Act.eq_mk_of_fst hok) hh hempty, hpaid]
  rfl

/-- The block after `payingBlock`. -/
def laterBlock : Block :=
  sampleBlock (sampleHeader sampleGenesis [sampleTransfer 9 0] (sampleAddress 1)) []
    (sampleAddress 1)

theorem bindsTransactions_payingBlock :
    BindsTransactions .sample {payingBlock, laterBlock} := by
  have hne : payingBlock.header.map Header.dataHash ≠ laterBlock.header.map Header.dataHash := by
    decide +kernel
  rintro b (rfl | rfl) b' (rfl | rfl) - - hdata
  · rfl
  · exact absurd hdata hne
  · exact absurd hdata.symm hne
  · rfl

/-- Two runs over the two blocks. In the second one the first block comes twice, and is refused the
second time. -/
theorem exists_runs :
    ∃ (bc bc' : Blockchain PoWEngine MemoryStore) (o : Outcome Err Unit),
      History (RanThrough .sample) payingChain [(payingBlock, .ok ()), (laterBlock, .ok ())] bc ∧
      History (RanThrough .sample) payingChain
        [(payingBlock, .ok ()), (payingBlock, o), (laterBlock, .ok ())] bc' ∧
      bc.headers = bc'.headers := by
  have hpaid : (addBlock .sample 1 payingBlock payingChain).1 = .ok () := by decide +kernel
  set mid := (addBlock .sample 1 payingBlock payingChain).2
  have hfirst : History (RanThrough .sample) payingChain [(payingBlock, .ok ())] mid :=
    .call .start (.of_ok (Act.eq_mk_of_fst hpaid))
  have hrefused : (validateBlockLocked .sample payingBlock mid).1 ≠ .ok () := by decide +kernel
  have hlater : (addBlock .sample 1 laterBlock mid).1 = .ok () := by decide +kernel
  have hlater' : (addBlock .sample 1 laterBlock (addBlock .sample 1 payingBlock mid).2).1 =
      .ok () := by decide +kernel
  have hheaders : (addBlock .sample 1 laterBlock mid).2.headers =
      (addBlock .sample 1 laterBlock (addBlock .sample 1 payingBlock mid).2).2.headers := by
    decide +kernel
  refine ⟨_, _, (addBlock .sample 1 payingBlock mid).1,
    hfirst.call (.of_ok (Act.eq_mk_of_fst hlater)),
    (hfirst.call ⟨1, Prod.mk.eta.symm, Or.inl hrefused⟩).call (.of_ok (Act.eq_mk_of_fst hlater')),
    hheaders⟩

/-- A block that a miner makes and that is wrong; one that is right; the same block with both roots;
and two nodes that agree. -/
theorem stateRoot_unread_minedBlock :
    (∃ (made : Block) (h : Header) (bc' : Blockchain PoWEngine MemoryStore),
      made.header = some h ∧ addBlock .sample 1 made minedChain = (.ok (), bc') ∧
        ∀ walk, bc'.worldState.stateRoot .sample sampleEncoder walk ≠ h.stateRoot) ∧
      (∃ bc', addBlock .sample 1 foretellingBlock minedChain = (.ok (), bc') ∧
        Commits .sample sampleEncoder foretellingHeader.stateRoot bc'.worldState) ∧
      (∃ bc' bc'', addBlock .sample 1 minedBlock minedChain = (.ok (), bc') ∧
        addBlock .sample 1 foretellingBlock minedChain = (.ok (), bc'') ∧
          bc''.worldState = bc'.worldState) ∧
      ∃ (bc bc' : Blockchain PoWEngine MemoryStore) (o : Outcome Err Unit),
        History (RanThrough .sample) payingChain [(payingBlock, .ok ()), (laterBlock, .ok ())] bc ∧
          History (RanThrough .sample) payingChain
            [(payingBlock, .ok ()), (payingBlock, o), (laterBlock, .ok ())] bc' ∧
          bc.worldState = bc'.worldState := by
  obtain ⟨hmade, hempty, hreissue, hruns⟩ :=
    @stateRoot_unread PoWEngine MemoryStore .sample sampleEncoder _ _ _
  refine ⟨?_, ?_, ?_, ?_⟩
  · obtain ⟨made, h, bc', hassembled, hh, hok, hws⟩ := exists_made
    refine ⟨made, h, bc', hh, hok, fun walk hroot => ?_⟩
    have hzero := (hmade hassembled hh bc'.worldState walk).mp hroot
    -- the type of the walk depends on the state
    revert walk
    rw [hws]
    intro walk _ hzero
    rw [combined_fundedState] at hzero
    exact absurd hzero (by decide +kernel)
  · have hok : addBlock .sample 1 foretellingBlock minedChain = (.ok (), _) :=
      Act.eq_mk_of_fst (by decide +kernel)
    exact ⟨_, hok, (hempty hok rfl rfl).mpr (commits_fundedState (sampleAddress 1))⟩
  · have hok : addBlock .sample 1 minedBlock minedChain = (.ok (), _) :=
      Act.eq_mk_of_fst (by decide +kernel)
    have hseal : (verifyConsensus .sample foretellingHeader minedChain).1 = .ok () := by
      decide +kernel
    obtain ⟨bc'', hok', hws, -⟩ := hreissue .pow hok rfl hseal (verify_sampleSignature _) rfl
    exact ⟨_, bc'', hok, hok', hws⟩
  · obtain ⟨bc, bc', o, hrun, hrun', hheaders⟩ := exists_runs
    refine ⟨bc, bc', o, hrun, hrun', hruns ?_ rfl rfl hrun hrun' hheaders⟩
    refine bindsTransactions_payingBlock.mono ?_
    show ∀ b ∈ [payingBlock, laterBlock, payingBlock, payingBlock, laterBlock],
      b ∈ ({payingBlock, laterBlock} : Set Block)
    simp

/-- A chain without an engine that `NewBlockchainWithState` has made on the same genesis block. -/
def richChain : Blockchain PoWEngine MemoryStore :=
  (addBlockWithoutValidationLocked .sample
    { header := some sampleGenesis, transactions := [] }
    (empty MemoryStore.new (createGenesisState [(sampleAddress 3, 7)]) none)).2

/-- **A header that commits to nothing.** The block is accepted with the zero hash as its root, the
state has another one, and a node that started with other balances accepts the block as well: the
two have the same headers and different balances. -/
theorem addBlock_accepts_zero_root :
    (addBlock .sample 1 minedBlock sampleChain).1 = .ok () ∧
      (sampleHeader sampleGenesis [] (sampleAddress 1)).stateRoot = Hash.zero ∧
      (addBlock .sample 1 minedBlock sampleChain).2.worldState = fundedState (sampleAddress 1) ∧
      (fundedState (sampleAddress 1)).stateRoot .sample sampleEncoder
        (fundedWalk (sampleAddress 1)) ≠ Hash.zero ∧
      (addBlock .sample 1 minedBlock richChain).1 = .ok () ∧
      (addBlock .sample 1 minedBlock richChain).2.headers =
        (addBlock .sample 1 minedBlock sampleChain).2.headers ∧
      (addBlock .sample 1 minedBlock richChain).2.worldState.getBalance (sampleAddress 3) = 7 ∧
      (addBlock .sample 1 minedBlock sampleChain).2.worldState.getBalance (sampleAddress 3) =
        0 := by
  have hok : (addBlock .sample 1 minedBlock sampleChain).1 = .ok () := by decide +kernel
  refine ⟨hok, rfl, worldState_of_empty (Act.eq_mk_of_fst hok) rfl rfl, by decide +kernel,
    by decide +kernel, by decide +kernel, by decide +kernel, by decide +kernel⟩

end Blockchain

end Blockz
