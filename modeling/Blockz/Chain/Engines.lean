import Blockz.Chain.Coherence
import Blockz.Chain.Supply
import Blockz.Consensus.PoS

/-!
# Which engines a chain can run with

`AddBlock` asks the installed engine for the weight of the block and adds it to the accumulated
difficulty. By then the reward is minted and the header appended. The question is put through a
type assertion, which fails on an engine without the method; and the accumulator is a pointer that
only `NewBlockchain` sets.

* `nextDifficulty_pow_iff`, `nextDifficulty_pos_iff` — when the weight can be added.
* `Used.isSome_totalDifficulty` — no call sets the accumulator or takes it away.
* `addBlock_appends_iff` — a valid block whose transactions run is appended exactly when no engine
  is installed, or when proof of work is installed on a chain that `NewBlockchain` has made and the
  header claims at most 256 bits.
-/

namespace Blockz

open Effect

/-- `core.ConsensusType`. -/
inductive ConsensusType
  | pow
  | pos
  deriving DecidableEq, Repr

/-- The engine that implements a consensus type. -/
def ConsensusType.Engine : ConsensusType → Type
  | .pow => PoWEngine
  | .pos => PoSEngine

instance (P : Primitives) : (k : ConsensusType) → ConsensusEngine P k.Engine
  | .pow => inferInstanceAs (ConsensusEngine P PoWEngine)
  | .pos => inferInstanceAs (ConsensusEngine P PoSEngine)

namespace Blockchain

variable {E S : Type} {P : Primitives}

/-! ### The engine stays installed -/

section Installed

variable [ConsensusEngine P E]

/-- Validation may change the state of the engine; it neither installs nor removes one. -/
theorem Valid.isSome_consensus {bc : Blockchain E S} {b : Block} {h : Header} {c' : Option E}
    (valid : Valid P bc b h c') : c'.isSome = bc.consensus.isSome := by
  cases hc : bc.consensus with
  | none => rw [valid.consensus_of_none hc]
  | some e =>
    obtain ⟨e', rfl, -⟩ := valid.consensus_of_some hc
    rfl

theorem isSome_slashEvidence (evidence : List Header) (c : Option E) :
    (slashEvidence P evidence c).isSome = c.isSome := by
  unfold slashEvidence
  split
  · rfl
  · exact Option.isSome_map

/-- The engine that is asked for the weight is there exactly when one was installed. -/
theorem Valid.consensus_withBlock {bc : Blockchain E S} {b : Block} {h : Header} {c' : Option E}
    (valid : Valid P bc b h c') (ws : WorldState) :
    (bc.withBlock P b h c' ws).consensus = none ↔ bc.consensus = none := by
  rw [← Option.not_isSome_iff_eq_none, ← Option.not_isSome_iff_eq_none]
  change ¬ (slashEvidence P b.evidence c').isSome = true ↔ _
  rw [isSome_slashEvidence, valid.isSome_consensus]

/-- The accumulator stays without an engine. Otherwise the engine has weights, it weighs the header,
and there is an accumulator to add to. -/
theorem nextDifficulty_eq_ok {bc : Blockchain E S} {h : Header} {total : Option ℕ} :
    bc.nextDifficulty P h = .ok total ↔
      bc.consensus = none ∧ total = bc.totalDifficulty ∨
        ∃ e weight w old, bc.consensus = some e ∧
          ConsensusEngine.calculateBlockWeight (P := P) (E := E) = some weight ∧
          weight e h = .ok w ∧ bc.totalDifficulty = some old ∧ total = some (old + w) := by
  unfold nextDifficulty
  cases bc.consensus with
  | none => simp [eq_comm]
  | some e =>
    cases ConsensusEngine.calculateBlockWeight (P := P) (E := E) with
    | none => simp
    | some weight =>
      cases hw : weight e h with
      | error p => simp [hw, bind, Except.bind]
      | ok w => cases bc.totalDifficulty <;> simp [hw, bind, Except.bind, eq_comm]

/-- Whenever a weight is added, there is an accumulator before and after. -/
theorem isSome_nextDifficulty {bc : Blockchain E S} {h : Header} {total : Option ℕ}
    (hok : bc.nextDifficulty P h = .ok total) : total.isSome = bc.totalDifficulty.isSome := by
  rcases nextDifficulty_eq_ok.mp hok with ⟨-, rfl⟩ | ⟨_, _, _, _, -, -, -, hold, rfl⟩
  · rfl
  · rw [hold]
    rfl

/-- Which number stands in the accumulator makes no difference to whether a weight can be added. -/
theorem exists_nextDifficulty {bc bd : Blockchain E S} {h : Header} {total : Option ℕ}
    (hconsensus : bd.consensus = bc.consensus)
    (hsome : bd.totalDifficulty.isSome = bc.totalDifficulty.isSome)
    (hok : bc.nextDifficulty P h = .ok total) : ∃ total', bd.nextDifficulty P h = .ok total' := by
  rcases nextDifficulty_eq_ok.mp hok with ⟨hnone, -⟩ | ⟨e, weight, w, old, he, hweight, hw, hold, -⟩
  · exact ⟨_, nextDifficulty_eq_ok.mpr (Or.inl ⟨hconsensus.trans hnone, rfl⟩)⟩
  · rw [hold] at hsome
    obtain ⟨old', hold'⟩ := Option.isSome_iff_exists.mp hsome
    exact ⟨_, nextDifficulty_eq_ok.mpr
      (Or.inr ⟨e, weight, w, old', hconsensus.trans he, hweight, hw, hold', rfl⟩)⟩

end Installed

/-! ### When the weight can be added -/

theorem nextDifficulty_none [ConsensusEngine P E] {bc : Blockchain E S} (hc : bc.consensus = none)
    (h : Header) : bc.nextDifficulty P h = .ok bc.totalDifficulty := by
  unfold nextDifficulty
  rw [hc]

theorem nextDifficulty_pow_iff {bc : Blockchain PoWEngine S} {h : Header} :
    (∃ total, bc.nextDifficulty P h = .ok total) ↔
      bc.consensus = none ∨
        bc.totalDifficulty.isSome = true ∧ ∃ w, PoWEngine.calculateBlockWeight P h = .ok w := by
  constructor
  · rintro ⟨total, hok⟩
    by_cases hengine : bc.consensus.isSome = true
    · obtain ⟨old, w, hold, hw, -⟩ := nextDifficulty_pow hengine hok
      exact Or.inr ⟨by rw [hold]; rfl, w, hw⟩
    · exact Or.inl (Option.not_isSome_iff_eq_none.mp hengine)
  · rintro (hnone | ⟨htotal, w, hw⟩)
    · exact ⟨_, nextDifficulty_none hnone h⟩
    · cases hc : bc.consensus with
      | none => exact ⟨_, nextDifficulty_none hc h⟩
      | some e =>
        obtain ⟨old, hold⟩ := Option.isSome_iff_exists.mp htotal
        refine ⟨some (old + w), ?_⟩
        unfold nextDifficulty
        rw [hc]
        change (PoWEngine.calculateBlockWeight P h >>= fun w => _) = _
        rw [hw, hold]
        rfl

/-- Proof of stake has no weight. -/
theorem nextDifficulty_pos_iff {bc : Blockchain PoSEngine S} {h : Header} :
    (∃ total, bc.nextDifficulty P h = .ok total) ↔ bc.consensus = none := by
  constructor
  · rintro ⟨total, hok⟩
    unfold nextDifficulty at hok
    cases hc : bc.consensus with
    | none => rfl
    | some e =>
      rw [hc] at hok
      exact absurd hok (by simp [ConsensusEngine.calculateBlockWeight])
  · intro hnone
    exact ⟨_, nextDifficulty_none hnone h⟩

/-- A header that proof of work accepts has a weight exactly when it claims at most 256 bits. -/
theorem Valid.weight_iff {bc : Blockchain PoWEngine S} {b : Block} {h : Header}
    {c' : Option PoWEngine} (valid : Valid P bc b h c') (hengine : bc.consensus ≠ none) :
    (∃ w, PoWEngine.calculateBlockWeight P h = .ok w) ↔ h.difficulty.toNat ≤ 256 := by
  have hverify : PoWEngine.verifyHeader P h = .ok () := by
    obtain ⟨e, he⟩ := Option.ne_none_iff_exists'.mp hengine
    obtain ⟨e', -, hcall⟩ := valid.consensus_of_some he
    exact (Prod.mk.inj hcall).1
  constructor
  · rintro ⟨w, hw⟩
    exact PoWEngine.difficulty_le_of_ok hverify hw
  · intro hle
    exact ⟨_, PoWEngine.lsh_of_le hle⟩

/-! ### One call -/

section Append

variable [ConsensusEngine P E] [Storage P S]

/-- Validation accepts the block, all its transactions run, and the store's `Put` comes back. -/
structure Ready (P : Primitives) [ConsensusEngine P E] [Storage P S] (fuel : ℕ)
    (bc : Blockchain E S) (b : Block) (h : Header) : Prop where
  header : b.header = some h
  accepted : (validateBlockLocked P b bc).1 = .ok ()
  executed : (executeTransactions P fuel b.transactions bc.worldState).1 = .ok ()
  stored : (Storage.put P b bc.store).1.Returns

/-- `AddBlock` comes back with the answer of the store, and has appended this header. -/
def Appends (P : Primitives) [ConsensusEngine P E] [Storage P S] (fuel : ℕ) (bc : Blockchain E S)
    (b : Block) (h : Header) : Prop :=
  (addBlock P fuel b bc).1 = (Storage.put P b bc.store).1 ∧
    (addBlock P fuel b bc).2.headers = bc.headers ++ [h]

theorem Ready.of_lawful [LawfulStorage P S] {fuel : ℕ} {bc : Blockchain E S} {b : Block}
    {h : Header} (hh : b.header = some h) (haccepted : (validateBlockLocked P b bc).1 = .ok ())
    (hexecuted : (executeTransactions P fuel b.transactions bc.worldState).1 = .ok ()) :
    Ready P fuel bc b h := by
  refine ⟨hh, haccepted, hexecuted, ?_⟩
  rw [LawfulStorage.put_ok bc.store hh]
  trivial

/-- On a lawful store, appending is succeeding. -/
theorem Ready.addBlock_ok_iff [LawfulStorage P S] {fuel : ℕ} {bc : Blockchain E S} {b : Block}
    {h : Header} (ready : Ready P fuel bc b h) :
    (addBlock P fuel b bc).1 = .ok () ↔ Appends P fuel bc b h := by
  have hput := LawfulStorage.put_ok (P := P) bc.store ready.header
  constructor
  · intro hok
    obtain ⟨h', c', ws, total, s, valid, -, -, -, hbc⟩ := addBlock_eq_ok (Act.eq_mk_of_fst hok)
    obtain rfl : h = h' := Option.some.inj (ready.header.symm.trans valid.header)
    exact ⟨hok.trans hput.symm, by rw [hbc]; rfl⟩
  · rintro ⟨hcall, -⟩
    exact hcall.trans hput

/-- What is left to go wrong for such a block is the weight. -/
theorem Ready.appends_iff {fuel : ℕ} {bc : Blockchain E S} {b : Block} {h : Header}
    (ready : Ready P fuel bc b h) :
    ∃ c' ws, Valid P bc b h c' ∧
      (Appends P fuel bc b h ↔ ∃ total, (bc.withBlock P b h c' ws).nextDifficulty P h = .ok total)
      := by
  obtain ⟨h', valid, -⟩ := validateBlockLocked_eq_ok (Act.eq_mk_of_fst ready.accepted)
  obtain rfl : h = h' := Option.some.inj (ready.header.symm.trans valid.header)
  have hexec := Act.eq_mk_of_fst ready.executed
  refine ⟨_, (executeTransactions P fuel b.transactions bc.worldState).2, valid, ?_⟩
  unfold Appends
  rw [addBlock_of_executed valid hexec]
  constructor
  · rintro ⟨hcall, -⟩
    cases hw : (bc.withBlock P b h (validateBlockLocked P b bc).2.consensus
        (executeTransactions P fuel b.transactions bc.worldState).2).nextDifficulty P h with
    | ok total => exact ⟨total, rfl⟩
    | error p =>
      -- the call has panicked, and `Put` does not
      have hreturns := ready.stored
      rw [← hcall, Act.bind_apply_panic (addWeight_of_error hw)] at hreturns
      exact absurd hreturns (Outcome.not_returns_panic p)
  · rintro ⟨total, hw⟩
    rw [Act.bind_apply_ok (addWeight_of_ok hw)]
    exact ⟨rfl, rfl⟩

end Append

theorem Ready.appends_iff_pow [Storage P S] {fuel : ℕ} {bc : Blockchain PoWEngine S} {b : Block}
    {h : Header} (ready : Ready P fuel bc b h) :
    Appends P fuel bc b h ↔
      bc.consensus = none ∨ bc.totalDifficulty.isSome = true ∧ h.difficulty.toNat ≤ 256 := by
  obtain ⟨c', ws, valid, hiff⟩ := ready.appends_iff
  rw [hiff, nextDifficulty_pow_iff, valid.consensus_withBlock]
  by_cases hc : bc.consensus = none
  · exact iff_of_true (Or.inl hc) (Or.inl hc)
  · rw [valid.weight_iff hc]
    rfl

theorem Ready.appends_iff_pos [Storage P S] {fuel : ℕ} {bc : Blockchain PoSEngine S} {b : Block}
    {h : Header} (ready : Ready P fuel bc b h) :
    Appends P fuel bc b h ↔ bc.consensus = none := by
  obtain ⟨c', ws, valid, hiff⟩ := ready.appends_iff
  rw [hiff, nextDifficulty_pos_iff, valid.consensus_withBlock]

/-- **One call with a shipped engine.** -/
theorem Ready.appends_iff_engine (k : ConsensusType) [Storage P S] {fuel : ℕ}
    {bc : Blockchain k.Engine S} {b : Block} {h : Header} (ready : Ready P fuel bc b h) :
    Appends P fuel bc b h ↔
      bc.consensus = none ∨
        k = .pow ∧ bc.totalDifficulty.isSome = true ∧ h.difficulty.toNat ≤ 256 := by
  cases k with
  | pow =>
    refine (@Ready.appends_iff_pow S P _ fuel bc b h ready).trans ?_
    exact or_congr_right ⟨fun hw => ⟨rfl, hw⟩, fun hw => hw.2⟩
  | pos =>
    refine (@Ready.appends_iff_pos S P _ fuel bc b h ready).trans ?_
    exact ⟨Or.inl, fun hor => hor.resolve_right fun hk => absurd hk.1 (by simp)⟩

/-! ### Chains made by a constructor -/

/-- The calls that drive a chain. -/
inductive Use (E : Type)
  | addBlock (b : Block)
  | setConsensus (e : E)

section Made

variable [ConsensusEngine P E] [Storage P S]

/-- One of these calls, however it ends. -/
def Used (P : Primitives) [ConsensusEngine P E] [Storage P S] (bc : Blockchain E S) :
    Use E → Outcome Err Unit → Blockchain E S → Prop
  | .addBlock b, o, bc' => Called P bc b o bc'
  | .setConsensus e, o, bc' => o = .ok () ∧ bc' = bc.setConsensus e

/-- No call sets the accumulator or takes it away. -/
theorem Used.isSome_totalDifficulty {bc bc' : Blockchain E S} {u : Use E} {o : Outcome Err Unit}
    (hused : Used P bc u o bc') : bc'.totalDifficulty.isSome = bc.totalDifficulty.isSome := by
  cases u with
  | setConsensus e =>
    obtain ⟨-, rfl⟩ := hused
    rfl
  | addBlock b =>
    obtain ⟨fuel, hcall⟩ := hused
    cases AddStep.of_call hcall with
    | invalid _ _ => rfl
    | aborted _ _ _ => rfl
    | crashed _ _ _ => rfl
    | appended _ _ weight _ => exact (isSome_nextDifficulty weight :)

/-- The genesis block weighs nothing: no engine is installed yet. -/
theorem totalDifficulty_genesis (genesis : Block) (s : S) (ws : WorldState) (total : Option ℕ) :
    (addBlockWithoutValidationLocked P genesis
      (empty s ws total : Blockchain E S)).2.totalDifficulty = total := by
  unfold addBlockWithoutValidationLocked
  cases genesis.header with
  | none => rfl
  | some g => rfl

theorem totalDifficulty_newBlockchain {rounds : ℕ} {genesis : Block} {s : S} {bc : Blockchain E S}
    (hnew : newBlockchain P rounds genesis s = .ok bc) : bc.totalDifficulty = some 0 := by
  unfold newBlockchain at hnew
  cases hget : Storage.get P s 0 with
  | ok b =>
    rw [hget] at hnew
    obtain ⟨headers, -, hbc⟩ := Outcome.bind_eq_ok.mp hnew
    obtain rfl := Outcome.ok.inj hbc
    rfl
  | err e =>
    rw [hget] at hnew
    obtain ⟨_, -, hbc⟩ := Outcome.bind_eq_ok.mp hnew
    obtain rfl := Outcome.ok.inj hbc
    exact totalDifficulty_genesis genesis s WorldState.new (some 0)
  | panic p =>
    rw [hget] at hnew
    exact absurd hnew (by simp)
  | outOfFuel =>
    rw [hget] at hnew
    exact absurd hnew (by simp)

theorem totalDifficulty_newBlockchainWithState {genesis : Block} {ws : WorldState}
    {bc : Blockchain E MemoryStore} (hnew : newBlockchainWithState P genesis ws = .ok bc) :
    bc.totalDifficulty = none := by
  unfold newBlockchainWithState at hnew
  obtain ⟨_, -, hbc⟩ := Outcome.bind_eq_ok.mp hnew
  obtain rfl := Outcome.ok.inj hbc
  exact totalDifficulty_genesis genesis MemoryStore.new ws none

end Made

/-- **When a shipped engine works with `AddBlock`.** The chain was made by one of the two
constructors and has been driven by any calls since. A block that validation accepts, whose
transactions all run and which the store takes, is appended exactly when no engine is installed, or
when proof of work is installed on a chain made by `NewBlockchain` and the header claims at most
256 bits. -/
theorem addBlock_appends_iff (k : ConsensusType) {fuel : ℕ} {b : Block} {h : Header} :
    (∀ {S : Type} [Storage P S] {rounds : ℕ} {genesis : Block} {s : S}
        {bc₀ bc : Blockchain k.Engine S} {es : List (Use k.Engine × Outcome Err Unit)},
        newBlockchain P rounds genesis s = .ok bc₀ → History (Used P) bc₀ es bc →
        Ready P fuel bc b h →
        (Appends P fuel bc b h ↔
          bc.consensus = none ∨ k = .pow ∧ h.difficulty.toNat ≤ 256)) ∧
      ∀ {genesis : Block} {ws : WorldState} {bc₀ bc : Blockchain k.Engine MemoryStore}
        {es : List (Use k.Engine × Outcome Err Unit)},
        newBlockchainWithState P genesis ws = .ok bc₀ → History (Used P) bc₀ es bc →
        Ready P fuel bc b h → (Appends P fuel bc b h ↔ bc.consensus = none) := by
  -- the accumulator is what the constructor made it
  have hkept : ∀ {S : Type} [Storage P S] {bc₀ bc : Blockchain k.Engine S}
      {es : List (Use k.Engine × Outcome Err Unit)}, History (Used P) bc₀ es bc →
      bc.totalDifficulty.isSome = bc₀.totalDifficulty.isSome := by
    intro S _ bc₀ bc es hrun
    refine hrun.invariant (fun bc => bc.totalDifficulty.isSome = bc₀.totalDifficulty.isSome) rfl ?_
    intro bc u o bc' hbc hused
    rw [hused.isSome_totalDifficulty, hbc]
  constructor
  · intro S _ rounds genesis s bc₀ bc es hnew hrun ready
    have htotal : bc.totalDifficulty.isSome = true := by
      rw [hkept hrun, totalDifficulty_newBlockchain hnew]
      rfl
    rw [ready.appends_iff_engine k, htotal]
    exact or_congr_right (and_congr_right fun _ => and_iff_right rfl)
  · intro genesis ws bc₀ bc es hnew hrun ready
    have htotal : bc.totalDifficulty.isSome = false := by
      rw [hkept hrun, totalDifficulty_newBlockchainWithState hnew]
      rfl
    rw [ready.appends_iff_engine k, htotal]
    exact or_iff_left fun hk => absurd hk.2.1 Bool.false_ne_true

def minedHeader : Header := sampleHeader sampleGenesis [] (sampleAddress 1)

/-- A chain that `NewBlockchainWithState` has made. -/
def statedChain : Blockchain PoWEngine MemoryStore :=
  (addBlockWithoutValidationLocked .sample
    { header := some sampleGenesis, transactions := [] }
    (empty MemoryStore.new WorldState.new none)).2

/-- The criterion for proof of work on the one chain, and for no engine on the other. -/
theorem addBlock_appends_iff_minedBlock :
    (Appends .sample 1 minedChain minedBlock minedHeader ↔
        minedChain.consensus = none ∨
          ConsensusType.pow = .pow ∧ minedHeader.difficulty.toNat ≤ 256) ∧
      (Appends .sample 1 statedChain minedBlock minedHeader ↔ statedChain.consensus = none) := by
  have hmined : Ready .sample 1 minedChain minedBlock minedHeader :=
    ⟨rfl, by decide +kernel, by decide +kernel, by decide +kernel⟩
  have hstated : Ready .sample 1 statedChain minedBlock minedHeader :=
    ⟨rfl, by decide +kernel, by decide +kernel, by decide +kernel⟩
  have hinstall : Used .sample sampleChain (.setConsensus (PoWEngine.newPoWEngine 1)) (.ok ())
      minedChain := ⟨rfl, rfl⟩
  have hrun : History (Used .sample) sampleChain _ minedChain := .call .start hinstall
  have hmade : newBlockchainWithState .sample { header := some sampleGenesis, transactions := [] }
      WorldState.new = .ok statedChain := rfl
  constructor
  · exact (addBlock_appends_iff .pow).1 newBlockchain_sampleChain hrun hmined
  · exact (addBlock_appends_iff .pow).2 hmade .start hstated

/-- A header whose claim, the greatest `uint64`, makes the exponent of the target wrap. -/
def heavyHeader : Header :=
  { sampleHeader sampleGenesis [] (sampleAddress 1) with difficulty := 18446744073709551615 }

def heavyBlock : Block where
  header := some heavyHeader
  transactions := []
  validator := sampleKey.publicKey
  signature := some (sampleSignature (heavyHeader.bytes .sample))

/-- What validation, execution and `AddBlock` answer to a block once an engine is installed. -/
def answers [ConsensusEngine .sample E] (e : E) (b : Block)
    (made : Outcome Err (Blockchain E MemoryStore)) :
    Outcome Err (Outcome Err Unit × Outcome Err Unit × Outcome Err Unit) := do
  let bc ← made
  pure ((validateBlockLocked .sample b (bc.setConsensus e)).1,
    (executeTransactions .sample 1 b.transactions bc.worldState).1,
    (addBlock .sample 1 b (bc.setConsensus e)).1)

/-- **Valid blocks that end the process.** Each block is accepted and has nothing to execute. Proof
of stake fails the type assertion; proof of work reaches a nil accumulator on the chain that was
made with a state; and on the other chain a header that claims `2 ^ 64 - 1` bits passes the check,
and its weight cannot be allocated. -/
theorem addBlock_panics_of_engine :
    answers (PoSEngine.newPoSEngine.addValidator (sampleAddress 1) 10) minedBlock
        (newBlockchain .sample 1 { header := some sampleGenesis, transactions := [] }
          MemoryStore.new) = .ok (.ok (), .ok (), .panic .typeAssertion) ∧
      answers (PoWEngine.newPoWEngine 1) minedBlock
        (newBlockchainWithState .sample { header := some sampleGenesis, transactions := [] }
          WorldState.new) = .ok (.ok (), .ok (), .panic .nilDereference) ∧
      answers (PoWEngine.newPoWEngine 1) heavyBlock
        (newBlockchain .sample 1 { header := some sampleGenesis, transactions := [] }
          MemoryStore.new) = .ok (.ok (), .ok (), .panic .allocation) := by
  decide +kernel

end Blockchain

end Blockz
