import Blockz.Chain.Execution
import Blockz.Consensus.PoW
import Blockz.Crypto.Instance

/-!
# What one call of `AddBlock` can do

`AddBlock` has five stages, and each of them can end the call. `AddStep` lists the ways in which a
call ends, with the outcome, the chain that is left, and everything that is known by then:

* `invalid` — the block was refused; the engine may have changed its own state, and nothing else
  was written.
* `aborted` — the block is valid, and a transaction ended the call. The world state is the one that
  the transactions have produced so far.
* `crashed` — all transactions ran, the reward was minted and the header appended; then the weight
  of the block panicked.
* `appended` — the call reached the store.

`addBlock_step` says that every call is one of these. Results about `AddBlock` are case
distinctions on it and do not unfold the function.
-/

namespace Blockz

open Effect

namespace Blockchain

variable {E S : Type} {P : Primitives} [ConsensusEngine P E] [Storage P S]

/-! ### Validation -/

omit [ConsensusEngine P E] [Storage P S] in
/-- What the position check asks for. It does not look at the store, and at the block only for the
text of an error. -/
theorem checkPosition_eq_ok {bc : Blockchain E S} {b : Block} {h : Header} :
    bc.checkPosition P b h = .ok () ↔
      ¬ bc.hasBlockLocked h.height ∧ h.height = bc.heightLocked + 1 ∧
        ∃ prev, bc.getHeaderLocked (h.height - 1) = .ok prev ∧
          BlockHasher.hash P prev = h.prevBlockHash := by
  unfold checkPosition
  rw [Outcome.require_bind_eq_ok, Outcome.require_bind_eq_ok, Outcome.bind_eq_ok]
  simp only [Outcome.require_eq_ok]

/-- What `ValidateBlockLocked` has checked when it accepts; `c'` is the engine it leaves. -/
structure Valid (P : Primitives) [ConsensusEngine P E] (bc : Blockchain E S) (b : Block)
    (h : Header) (c' : Option E) : Prop where
  header : b.header = some h
  position : bc.checkPosition P b h = .ok ()
  consensus : verifyConsensus P h bc = (.ok (), { bc with consensus := c' })
  verify : b.verify P = .ok ()

omit [Storage P S] in
/-- The transactions of a valid block have senders. -/
theorem Valid.signed {bc : Blockchain E S} {b : Block} {h : Header} {c' : Option E}
    (valid : Valid P bc b h c') : ∀ tx ∈ b.transactions, ∃ a, tx.SignedBy P a := by
  obtain ⟨-, -, -, -, -, htx, -⟩ := Block.verify_eq_ok valid.verify
  exact fun tx hmem => Transaction.signedBy_of_verify (htx tx hmem)

omit [Storage P S] in
/-- Without an engine there is nothing to ask. -/
theorem Valid.consensus_of_none {bc : Blockchain E S} {b : Block} {h : Header} {c' : Option E}
    (valid : Valid P bc b h c') (hnone : bc.consensus = none) : c' = none := by
  have hcall := valid.consensus
  unfold verifyConsensus at hcall
  rw [hnone] at hcall
  have hbc : bc.consensus = c' := congrArg Blockchain.consensus (Prod.mk.inj hcall).2
  rw [← hbc, hnone]

omit [Storage P S] in
/-- The engine has accepted the header, and is left in the state that the check produced. -/
theorem Valid.consensus_of_some {bc : Blockchain E S} {b : Block} {h : Header} {c' : Option E}
    {e : E} (valid : Valid P bc b h c') (hsome : bc.consensus = some e) :
    ∃ e', c' = some e' ∧ ConsensusEngine.verifyHeader P h e = (.ok (), e') := by
  have hcall := valid.consensus
  unfold verifyConsensus at hcall
  rw [hsome] at hcall
  have hbc : some (ConsensusEngine.verifyHeader P h e).2 = c' :=
    congrArg Blockchain.consensus (Prod.mk.inj hcall).2
  exact ⟨_, hbc.symm, Act.eq_mk_of_fst (Prod.mk.inj hcall).1⟩

/-- The two chains differ at most in the state of the engine. -/
def SameButEngine (bc bc' : Blockchain E S) : Prop := ∃ c', bc' = { bc with consensus := c' }

instance : Std.Refl (SameButEngine : Blockchain E S → Blockchain E S → Prop) where
  refl bc := ⟨bc.consensus, rfl⟩

instance : IsTrans (Blockchain E S) SameButEngine where
  trans := by
    rintro bc _ _ ⟨c₁, rfl⟩ ⟨c₂, rfl⟩
    exact ⟨c₂, rfl⟩

omit [Storage P S] in
theorem verifyConsensus_moves (h : Header) :
    Act.Moves SameButEngine (verifyConsensus P h : Act (Blockchain E S) Err Unit) := by
  intro bc
  unfold verifyConsensus
  cases bc.consensus with
  | none => exact refl_of SameButEngine bc
  | some e => exact ⟨_, rfl⟩

omit [Storage P S] in
/-- Validation writes the engine's own state and nothing else, whatever it answers. -/
theorem validateBlockLocked_moves (b : Block) :
    Act.Moves SameButEngine (validateBlockLocked P b : Act (Blockchain E S) Err Unit) := by
  refine Act.Moves.get.bind fun bc => (Act.Moves.lift _).bind fun h => ?_
  refine (Act.Moves.lift _).bind fun _ => ?_
  exact (verifyConsensus_moves h).bind fun _ => Act.Moves.lift _

omit [Storage P S] in
/-- Validation of a block without a header, or in the wrong place, ends before the engine is
asked. -/
theorem validateBlockLocked_of_misplaced {b : Block} {bc : Blockchain E S}
    (hbad : ∀ h, b.header = some h → bc.checkPosition P b h ≠ .ok ()) :
    (validateBlockLocked P b bc).2 = bc := by
  unfold validateBlockLocked
  rw [Act.get_bind_apply]
  cases hh : b.header with
  | none => rfl
  | some h =>
    rw [Outcome.deref_some, Act.bind_apply_ok (Act.lift_apply _ _)]
    cases hpos : bc.checkPosition P b h with
    | ok _ => exact absurd hpos (hbad h hh)
    | err e => rw [Act.bind_apply_err (Act.lift_apply _ _)]
    | panic p => rw [Act.bind_apply_panic (Act.lift_apply _ _)]
    | outOfFuel => rw [Act.bind_apply_outOfFuel (Act.lift_apply _ _)]

omit [Storage P S] in
/-- Validation of a block in the right place: the engine is asked, and then the block verified. -/
theorem validateBlockLocked_of_position {b : Block} {h : Header} {bc : Blockchain E S}
    (hh : b.header = some h) (hpos : bc.checkPosition P b h = .ok ()) :
    validateBlockLocked P b bc =
      (verifyConsensus P h >>= fun _ => Act.lift (b.verify P)) bc := by
  unfold validateBlockLocked
  rw [Act.get_bind_apply, hh, Outcome.deref_some, Act.bind_apply_ok (Act.lift_apply _ _), hpos,
    Act.bind_apply_ok (Act.lift_apply _ _)]

omit [Storage P S] in
/-- A preorder along which every header check moves the engine is one along which validation moves
it, whatever it answers. -/
theorem validateBlockLocked_engine {R : E → E → Prop} [Std.Refl R] [IsTrans E R]
    (hverify : ∀ h, Act.Moves R (ConsensusEngine.verifyHeader P h)) (b : Block) :
    Act.Moves (fun bc bc' : Blockchain E S => Option.Rel R bc.consensus bc'.consensus)
      (validateBlockLocked P b) := by
  have : Std.Refl fun bc bc' : Blockchain E S => Option.Rel R bc.consensus bc'.consensus := by
    refine ⟨fun bc => ?_⟩
    cases bc.consensus with
    | none => exact .none
    | some e => exact .some (refl_of R e)
  have : IsTrans (Blockchain E S) fun bc bc' => Option.Rel R bc.consensus bc'.consensus := by
    have htrans : ∀ {c₁ c₂ c₃ : Option E}, Option.Rel R c₁ c₂ → Option.Rel R c₂ c₃ →
        Option.Rel R c₁ c₃ := by
      rintro _ _ _ (h₁ | _) (h₂ | _)
      · exact .some (trans_of R h₁ h₂)
      · exact .none
    exact ⟨fun _ _ _ => htrans⟩
  refine Act.Moves.get.bind fun bc => (Act.Moves.lift _).bind fun h => ?_
  refine (Act.Moves.lift _).bind fun _ => Act.Moves.bind ?_ fun _ => Act.Moves.lift _
  intro bc
  unfold verifyConsensus
  cases hc : bc.consensus with
  | none =>
    rw [hc]
    exact .none
  | some e => exact .some (hverify h e)

omit [Storage P S] in
theorem validateBlockLocked_eq_ok {b : Block} {bc bc' : Blockchain E S}
    (hok : validateBlockLocked P b bc = (.ok (), bc')) :
    ∃ h, Valid P bc b h bc'.consensus ∧ bc' = { bc with consensus := bc'.consensus } := by
  unfold validateBlockLocked at hok
  rw [Act.get_bind_apply, Act.lift_bind_eq_ok] at hok
  obtain ⟨h, hheader, hok⟩ := hok
  rw [Act.lift_bind_eq_ok] at hok
  obtain ⟨_, hposition, hok⟩ := hok
  rw [Act.bind_eq_ok] at hok
  obtain ⟨_, bc₁, hconsensus, hlast⟩ := hok
  obtain ⟨hverify, rfl⟩ := Prod.mk.inj hlast
  have hmoves : SameButEngine bc (verifyConsensus P h bc).2 := verifyConsensus_moves h bc
  rw [hconsensus] at hmoves
  obtain ⟨c', rfl⟩ := hmoves
  exact ⟨h, ⟨Outcome.deref_eq_ok.mp hheader, hposition, hconsensus, hverify⟩, rfl⟩

/-! ### The step -/

/-- The chain when the header has been appended and its weight not yet added. -/
def withBlock (P : Primitives) [ConsensusEngine P E] (bc : Blockchain E S) (b : Block)
    (h : Header) (c' : Option E) (ws : WorldState) : Blockchain E S :=
  { bc with
    headers := bc.headers ++ [h]
    consensus := slashEvidence P b.evidence c'
    worldState := ws.addBalance h.coinbase blockReward }

/-- The ways in which `AddBlock` ends on `bc` and `b`. -/
inductive AddStep (P : Primitives) [ConsensusEngine P E] [Storage P S] (fuel : ℕ)
    (bc : Blockchain E S) (b : Block) : Outcome Err Unit → Blockchain E S → Prop
  | invalid {o : Outcome Err Unit} {c' : Option E}
      (refused : validateBlockLocked P b bc = (o, { bc with consensus := c' }))
      (stop : ∀ u, o ≠ .ok u) :
      AddStep P fuel bc b o { bc with consensus := c' }
  | aborted {o : Outcome Err Unit} {c' : Option E} {h : Header} {ws : WorldState}
      (valid : Valid P bc b h c')
      (executed : executeTransactions P fuel b.transactions bc.worldState = (o, ws))
      (stop : ∀ u, o ≠ .ok u) :
      AddStep P fuel bc b o { bc with consensus := c', worldState := ws }
  | crashed {c' : Option E} {h : Header} {ws : WorldState} {p : Panic}
      (valid : Valid P bc b h c')
      (executed : executeTransactions P fuel b.transactions bc.worldState = (.ok (), ws))
      (weight : (bc.withBlock P b h c' ws).nextDifficulty P h = .error p) :
      AddStep P fuel bc b (.panic p) (bc.withBlock P b h c' ws)
  | appended {c' : Option E} {h : Header} {ws : WorldState} {total : Option ℕ}
      {o : Outcome Err Unit} {s : S}
      (valid : Valid P bc b h c')
      (executed : executeTransactions P fuel b.transactions bc.worldState = (.ok (), ws))
      (weight : (bc.withBlock P b h c' ws).nextDifficulty P h = .ok total)
      (put : Storage.put P b bc.store = (o, s)) :
      AddStep P fuel bc b o
        { bc.withBlock P b h c' ws with totalDifficulty := total, store := s }

omit [Storage P S] in
theorem Valid.validate {b : Block} {bc : Blockchain E S} {c' : Option E} {h : Header}
    (valid : Valid P bc b h c') :
    validateBlockLocked P b bc = (.ok (), { bc with consensus := c' }) := by
  unfold validateBlockLocked
  rw [Act.get_bind_apply, valid.header, Outcome.deref_some,
    Act.bind_apply_ok (Act.lift_apply _ _), valid.position,
    Act.bind_apply_ok (Act.lift_apply _ _), Act.bind_apply_ok valid.consensus, valid.verify]
  rfl

omit [Storage P S] in
theorem addWeight_of_ok {bc : Blockchain E S} {h : Header} {total : Option ℕ}
    (hw : bc.nextDifficulty P h = .ok total) :
    addWeight P h bc = (.ok (), { bc with totalDifficulty := total }) := by
  unfold addWeight
  rw [Act.get_bind_apply, hw]
  rfl

omit [Storage P S] in
theorem addWeight_of_error {bc : Blockchain E S} {h : Header} {p : Panic}
    (hw : bc.nextDifficulty P h = .error p) : addWeight P h bc = (.panic p, bc) := by
  unfold addWeight
  rw [Act.get_bind_apply, hw]
  rfl

/-- The call after its loop: it weighs the block and stores it. -/
theorem addBlock_of_executed {fuel : ℕ} {b : Block} {bc : Blockchain E S} {c' : Option E}
    {h : Header} {ws : WorldState} (valid : Valid P bc b h c')
    (executed : executeTransactions P fuel b.transactions bc.worldState = (.ok (), ws)) :
    addBlock P fuel b bc =
      (addWeight P h >>= fun _ =>
        Act.on store (fun s bc => { bc with store := s }) (Storage.put P b))
        (bc.withBlock P b h c' ws) := by
  have hloop : Act.on worldState (fun ws (bc : Blockchain E S) => { bc with worldState := ws })
      (executeTransactions P fuel b.transactions) { bc with consensus := c' }
        = (.ok (), { bc with consensus := c', worldState := ws }) := by
    rw [Act.on_apply, executed]
  unfold addBlock
  rw [Act.bind_apply_ok valid.validate, Act.bind_apply_ok hloop, Act.modify_bind_apply,
    valid.header, Outcome.deref_some, Act.bind_apply_ok (Act.lift_apply _ _),
    Act.modify_bind_apply]
  unfold addBlockWithoutValidationLocked
  rw [valid.header, Outcome.deref_some, Act.bind_apply_ok (Act.lift_apply _ _)]
  rfl

/-- The call whose loop was ended by a transaction. -/
theorem addBlock_of_stopped {fuel : ℕ} {b : Block} {bc : Blockchain E S} {c' : Option E}
    {h : Header} {ws : WorldState} {o : Outcome Err Unit} (valid : Valid P bc b h c')
    (executed : executeTransactions P fuel b.transactions bc.worldState = (o, ws))
    (stop : ∀ u, o ≠ .ok u) :
    addBlock P fuel b bc = (o, { bc with consensus := c', worldState := ws }) := by
  have hloop : Act.on worldState (fun ws (bc : Blockchain E S) => { bc with worldState := ws })
      (executeTransactions P fuel b.transactions) { bc with consensus := c' }
        = (o, { bc with consensus := c', worldState := ws }) := by
    rw [Act.on_apply, executed]
  unfold addBlock
  rw [Act.bind_apply_ok valid.validate]
  exact Act.bind_apply_stop hloop stop _

/-- **Every call of `AddBlock` is one of the listed steps.** -/
theorem addBlock_step (fuel : ℕ) (b : Block) (bc : Blockchain E S) :
    AddStep P fuel bc b (addBlock P fuel b bc).1 (addBlock P fuel b bc).2 := by
  obtain ⟨c', hengine⟩ := validateBlockLocked_moves (P := P) b bc
  have hvalidate : validateBlockLocked P b bc =
      ((validateBlockLocked P b bc).1, { bc with consensus := c' }) := by rw [← hengine]
  by_cases hok : (validateBlockLocked P b bc).1 = .ok ()
  case neg =>
    -- refused: the call ends with the answer of the validator
    have hstop : ∀ u, (validateBlockLocked P b bc).1 ≠ .ok u := fun _ => hok
    have hcall : addBlock P fuel b bc = _ := Act.bind_apply_stop hvalidate hstop _
    rw [hcall]
    exact .invalid hvalidate hstop
  case pos =>
    rw [hok] at hvalidate
    obtain ⟨h, valid, -⟩ := validateBlockLocked_eq_ok hvalidate
    rcases hexec : executeTransactions P fuel b.transactions bc.worldState with ⟨o, ws⟩
    by_cases hdone : o = .ok ()
    case neg =>
      -- a transaction ended the call
      have hstop : ∀ u, o ≠ .ok u := fun _ => hdone
      rw [addBlock_of_stopped valid hexec hstop]
      exact .aborted valid hexec hstop
    case pos =>
      subst hdone
      rw [addBlock_of_executed valid hexec]
      cases hweight : (bc.withBlock P b h c' ws).nextDifficulty P h with
      | error p =>
        rw [Act.bind_apply_panic (addWeight_of_error hweight)]
        exact .crashed valid hexec hweight
      | ok total =>
        rw [Act.bind_apply_ok (addWeight_of_ok hweight)]
        exact .appended valid hexec hweight rfl

/-- The step of a call whose result is known. -/
theorem AddStep.of_call {fuel : ℕ} {b : Block} {bc bc' : Blockchain E S} {o : Outcome Err Unit}
    (hcall : addBlock P fuel b bc = (o, bc')) : AddStep P fuel bc b o bc' := by
  have hstep := addBlock_step (P := P) fuel b bc
  rwa [hcall] at hstep

/-- A block that is not valid changes the engine at most. -/
theorem AddStep.of_not_valid {fuel : ℕ} {b : Block} {bc bc' : Blockchain E S}
    {o : Outcome Err Unit} (hstep : AddStep P fuel bc b o bc')
    (hnot : ∀ h c', ¬ Valid P bc b h c') : SameButEngine bc bc' := by
  cases hstep with
  | invalid _ _ => exact ⟨_, rfl⟩
  | aborted valid _ _ => exact absurd valid (hnot _ _)
  | crashed valid _ _ => exact absurd valid (hnot _ _)
  | appended valid _ _ _ => exact absurd valid (hnot _ _)

/-- What a successful call has done. -/
theorem addBlock_eq_ok {fuel : ℕ} {b : Block} {bc bc' : Blockchain E S}
    (hok : addBlock P fuel b bc = (.ok (), bc')) :
    ∃ (h : Header) (c' : Option E) (ws : WorldState) (total : Option ℕ) (s : S),
      Valid P bc b h c' ∧
      executeTransactions P fuel b.transactions bc.worldState = (.ok (), ws) ∧
      (bc.withBlock P b h c' ws).nextDifficulty P h = .ok total ∧
      Storage.put P b bc.store = (.ok (), s) ∧
      bc' = { bc.withBlock P b h c' ws with totalDifficulty := total, store := s } := by
  cases AddStep.of_call hok with
  | invalid _ stop => exact absurd rfl (stop ())
  | aborted _ _ stop => exact absurd rfl (stop ())
  | @appended c' h ws total _ s valid executed weight put =>
    exact ⟨h, c', ws, total, s, valid, executed, weight, put, rfl⟩

/-- A call on which every stage succeeds. -/
theorem addBlock_of_stages {fuel : ℕ} {b : Block} {bc : Blockchain E S} {h : Header}
    {c' : Option E} {ws : WorldState} {total : Option ℕ} {s : S} (valid : Valid P bc b h c')
    (executed : executeTransactions P fuel b.transactions bc.worldState = (.ok (), ws))
    (weight : (bc.withBlock P b h c' ws).nextDifficulty P h = .ok total)
    (put : Storage.put P b bc.store = (.ok (), s)) :
    addBlock P fuel b bc =
      (.ok (), { bc.withBlock P b h c' ws with totalDifficulty := total, store := s }) := by
  have hput : Storage.put P b (bc.withBlock P b h c' ws).store = (.ok (), s) := put
  rw [addBlock_of_executed valid executed, Act.bind_apply_ok (addWeight_of_ok weight),
    Act.on_apply, hput]

/-! ### A concrete chain -/

/-- A chain with nothing but its genesis block. -/
def sampleChain : Blockchain PoWEngine MemoryStore :=
  (addBlockWithoutValidationLocked .sample
    { header := some sampleGenesis, transactions := [] }
    (empty MemoryStore.new WorldState.new (some 0))).2

theorem newBlockchain_sampleChain :
    newBlockchain .sample 1 { header := some sampleGenesis, transactions := [] } MemoryStore.new
      = .ok sampleChain := rfl

end Blockchain

end Blockz
