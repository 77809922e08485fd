import Blockz.Core.Storage
import Blockz.Core.VM

/-!
# The blockchain

`core/blockchain.go`, `core/validator.go` and `core/consensus.go`. The chain is generic in its
consensus engine and in its store. A call works on the fields of the chain in place: `AddBlock`
validates the block, runs its transactions against the world state, punishes the validators named
in the evidence, mints the reward, and appends the header. An error or a panic leaves whatever has
been written by then.

The engine is used through the interface `ConsensusEngine` and through two type assertions, one
for a method `Slash`, which is tested, and one for a method `CalculateBlockWeight`, which is not.
A method that an engine may lack is an `Option` field of the class. The validator is always the
`BlockValidator` that both constructors install: nothing in the repository calls `SetValidator`.
-/

namespace Blockz

open Effect

/-- `core.ConsensusEngine`, as far as the chain uses it. -/
class ConsensusEngine (P : Primitives) (E : Type) where
  verifyHeader : Header → Act E Err Unit
  -- `Slash(types.Address, string)`; no engine reads the second argument
  slash : Option (Address → E → E)
  -- `CalculateBlockWeight(*Header) *big.Int` has no error result
  calculateBlockWeight : Option (E → Header → Except Panic ℕ)

/-- `core.Blockchain`. -/
structure Blockchain (E S : Type) where
  store : S
  headers : List Header
  consensus : Option E
  worldState : WorldState
  -- nil in a chain that was made by `NewBlockchainWithState`
  totalDifficulty : Option ℕ

/-! ### Executing transactions -/

section Execute

variable (P : Primitives)

-- The three parts of `executeTransaction`. The code runs against the world state itself, so what
-- it has stored stays there when it fails.

def runContract (fuel : ℕ) (tx : Transaction) : Act WorldState Err Unit :=
  if 0 < tx.data.length then do
    let fromAddr ← Act.lift (tx.fromKey.address P)
    let _ ← Act.on
      (fun ws => newEVM tx.data [] ws tx.toAddr fromAddr tx.value.toNat tx.gasLimit)
      (fun evm _ => evm.state) (EVM.run P fuel)
    pure ()
  else pure ()

def transferValue (tx : Transaction) : Act WorldState Err Unit :=
  if 0 < tx.value then do
    let fromAddr ← Act.lift (tx.fromKey.address P)
    Act.mapErr .transferFailed (WorldState.transfer fromAddr tx.toAddr tx.value)
  else pure ()

def bumpNonce (tx : Transaction) : Act WorldState Err Unit :=
  if tx.signature.isSome then do
    let fromAddr ← Act.lift (tx.fromKey.address P)
    Act.modify fun ws => ws.incrementNonce fromAddr
  else pure ()

/-- `Blockchain.executeTransaction`. -/
def executeTransaction (fuel : ℕ) (tx : Transaction) : Act WorldState Err Unit := do
  runContract P fuel tx
  transferValue P tx
  bumpNonce P tx

def executeTransactions (fuel : ℕ) (txx : List Transaction) : Act WorldState Err Unit :=
  Act.forEach (executeTransaction P fuel) txx

end Execute

namespace Blockchain

variable {E S : Type}

/-! ### Heights and headers -/

/-- `Blockchain.heightLocked`, in `uint32`. -/
def heightLocked (bc : Blockchain E S) : UInt32 := UInt32.ofNat bc.headers.length - 1

/-- `Blockchain.Height`. -/
def height (bc : Blockchain E S) : UInt32 := bc.heightLocked

/-- `Blockchain.hasBlockLocked`. -/
def hasBlockLocked (bc : Blockchain E S) (height : UInt32) : Prop := height ≤ bc.heightLocked

instance (bc : Blockchain E S) (height : UInt32) : Decidable (bc.hasBlockLocked height) :=
  inferInstanceAs (Decidable (_ ≤ _))

/-- `Blockchain.getHeaderLocked`. -/
def getHeaderLocked (bc : Blockchain E S) (height : UInt32) : Outcome Err Header :=
  if UInt32.ofNat bc.headers.length ≤ height then .err (.heightTooHigh height)
  else Outcome.deref bc.headers[height.toNat]?

/-- `Blockchain.GetHeader`. The comparison is with `Height`, and the slice is indexed after it. -/
def getHeader (bc : Blockchain E S) (height : UInt32) : Outcome Err Header :=
  if bc.height < height then .err (.headerTooHigh height)
  else match bc.headers[height.toNat]? with
    | none => .panic .sliceBounds
    | some h => .ok h

/-- `Blockchain.SetConsensus`. -/
def setConsensus (bc : Blockchain E S) (e : E) : Blockchain E S := { bc with consensus := some e }

variable (P : Primitives) [ConsensusEngine P E] [Storage P S]

/-- `Blockchain.GetBlock`. -/
def getBlock (bc : Blockchain E S) (height : UInt32) : Outcome Err Block :=
  Storage.get P bc.store height

/-- `Blockchain.GetTxByHash`. -/
def getTxByHash (bc : Blockchain E S) (hash : Hash) : Outcome Err Transaction :=
  Storage.getTxByHash P bc.store hash

/-! ### Validation -/

/-- The consensus check of `ValidateBlockLocked`. The engine may change its own state. -/
def verifyConsensus (h : Header) : Act (Blockchain E S) Err Unit := fun bc =>
  match bc.consensus with
  | none => (.ok (), bc)
  | some e =>
    ((ConsensusEngine.verifyHeader P h e).1,
      { bc with consensus := some (ConsensusEngine.verifyHeader P h e).2 })

/-- The checks of `ValidateBlockLocked` that come before the consensus check. -/
def checkPosition (bc : Blockchain E S) (b : Block) (h : Header) : Outcome Err Unit := do
  Outcome.require (¬ bc.hasBlockLocked h.height) (.chainAlreadyContains h.height (b.hash P h))
  Outcome.require (h.height = bc.heightLocked + 1)
    (.blockTooHigh (b.hash P h) h.height bc.heightLocked)
  let prevHeader ← bc.getHeaderLocked (h.height - 1)
  Outcome.require (BlockHasher.hash P prevHeader = h.prevBlockHash)
    (.invalidPrevHash h.prevBlockHash)

/-- `BlockValidator.ValidateBlockLocked`. -/
def validateBlockLocked (b : Block) : Act (Blockchain E S) Err Unit := do
  let bc ← Act.get
  let h ← Act.lift (Outcome.deref b.header)
  Act.lift (bc.checkPosition P b h)
  verifyConsensus P h
  Act.lift (b.verify P)

/-! ### Appending -/

/-- What `addBlockWithoutValidationLocked` leaves in the accumulator. -/
def nextDifficulty (bc : Blockchain E S) (h : Header) : Except Panic (Option ℕ) :=
  match bc.consensus with
  | none => .ok bc.totalDifficulty
  | some e =>
    match ConsensusEngine.calculateBlockWeight (P := P) (E := E) with
    -- the type assertion has no second result, so it panics on an engine without the method
    | none => .error .typeAssertion
    | some weight => do
      let w ← weight e h
      match bc.totalDifficulty with
      -- `Add` is called on a nil accumulator
      | none => .error .nilDereference
      | some total => .ok (some (total + w))

def addWeight (h : Header) : Act (Blockchain E S) Err Unit := do
  let bc ← Act.get
  let total ← Act.lift (Outcome.ofExcept (bc.nextDifficulty P h))
  Act.modify fun bc => { bc with totalDifficulty := total }

/-- `Blockchain.addBlockWithoutValidationLocked`. -/
def addBlockWithoutValidationLocked (b : Block) : Act (Blockchain E S) Err Unit := do
  -- The source appends first and `Hash` then panics on a nil header. Only a constructor gets here
  -- with one, and it returns no chain, so the order cannot be observed.
  let h ← Act.lift (Outcome.deref b.header)
  Act.modify fun bc => { bc with headers := bc.headers ++ [h] }
  addWeight P h
  Act.on store (fun s bc => { bc with store := s }) (Storage.put P b)

/-- The loop over the evidence: every header in it has its producer slashed, if the engine can. -/
def slashEvidence (evidence : List Header) (consensus : Option E) : Option E :=
  match ConsensusEngine.slash (P := P) (E := E) with
  | none => consensus
  | some slash => consensus.map fun e => evidence.foldl (fun e h => slash h.coinbase e) e

/-- The reward that `AddBlock` mints to the coinbase. -/
def blockReward : UInt64 := 5

/-- `Blockchain.AddBlock`. -/
def addBlock (fuel : ℕ) (b : Block) : Act (Blockchain E S) Err Unit := do
  validateBlockLocked P b
  Act.on worldState (fun ws bc => { bc with worldState := ws })
    (executeTransactions P fuel b.transactions)
  Act.modify fun bc => { bc with consensus := slashEvidence P b.evidence bc.consensus }
  let h ← Act.lift (Outcome.deref b.header)
  Act.modify fun bc => { bc with worldState := bc.worldState.addBalance h.coinbase blockReward }
  addBlockWithoutValidationLocked P b

/-! ### Construction -/

/-- `Blockchain.loadHeaders`, for at most `fuel` rounds: the counter is a `uint32`, so on a store
with a block at every height the loop does not end. -/
def loadHeaders (s : S) : ℕ → UInt32 → List Header → Outcome Err (List Header)
  | 0, _, _ => .outOfFuel
  | fuel + 1, i, headers =>
    match Storage.get P s i with
    | .ok block => do
      let h ← Outcome.deref block.header
      loadHeaders s fuel (i + 1) (headers ++ [h])
    | .err _ => .ok headers
    | .panic p => .panic p
    | .outOfFuel => .outOfFuel

/-- The chain that the two constructors start from. -/
def empty (s : S) (ws : WorldState) (totalDifficulty : Option ℕ) : Blockchain E S where
  store := s
  headers := []
  consensus := none
  worldState := ws
  totalDifficulty := totalDifficulty

/-- `NewBlockchain`. -/
def newBlockchain (fuel : ℕ) (genesis : Block) (s : S) : Outcome Err (Blockchain E S) :=
  let bc : Blockchain E S := empty s WorldState.new (some 0)
  match Storage.get P s 0 with
  | .err _ => do
    (addBlockWithoutValidationLocked P genesis bc).1
    pure (addBlockWithoutValidationLocked P genesis bc).2
  | .ok _ => do
    let headers ← loadHeaders P s fuel 0 []
    pure { bc with headers := headers }
  | .panic p => .panic p
  | .outOfFuel => .outOfFuel

/-- `NewBlockchainWithState`. -/
def newBlockchainWithState (genesis : Block) (ws : WorldState) :
    Outcome Err (Blockchain E MemoryStore) :=
  let bc : Blockchain E MemoryStore := empty MemoryStore.new ws none
  do
    (addBlockWithoutValidationLocked P genesis bc).1
    pure (addBlockWithoutValidationLocked P genesis bc).2

end Blockchain

end Blockz
