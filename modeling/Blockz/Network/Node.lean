import Blockz.Chain.Production
import Blockz.Chain.Step
import Blockz.Network.Server
import Blockz.Network.TxPool

/-!
# The node

The rest of `network/server.go`: the pool is filled by `ProcessTransaction`, blocks come from peers
(`processBlock`) or from the validator loop (`createNewBlock`), and the loop of `Start` decodes what
the transports deliver and hands it to `ProcessMessage`.

What is handled in a goroutine of its own (a broadcast, an outgoing connection) is noted in the
state and has no effect there. What the outside contributes to the handling of a message, the clock
and the order in which Go walks through a map, is the argument `Moment`.

The frame lemmas say what each handler leaves alone. The pool changes in `ProcessTransaction` and in
`createNewBlock`, the chain in the three places that call `AddBlock`.
-/

namespace Blockz

open Effect

/-! ### State -/

/-- A broadcast that a goroutine was started for. -/
inductive Broadcast
  | transaction (tx : Transaction)
  | block (b : Block)

/-- `network.Server`, with what the handlers of this module use. -/
structure Node (E S : Type) extends Server E S where
  memPool : TxPool
  -- nil on a node that makes no blocks
  privateKey : Option PrivateKey
  -- each with its address
  transports : List (NetAddr × Transport)
  -- oldest first
  launched : List Broadcast
  dialed : List NetAddr

/-- What the outside contributes to the handling of one message. -/
structure Moment where
  -- `time.Now().UnixNano()`
  now : Int64
  -- the order in which a `range` over the peers runs
  peerOrder : List NetAddr

/-- The transaction after the calls of `Hash` and `SetFirstSeen`. -/
def Transaction.seenAt (P : Primitives) (tx : Transaction) (now : Int64) : Transaction :=
  { tx.cacheHash P with firstSeen := now }

theorem Transaction.hash_seenAt {P : Primitives} (tx : Transaction) (now : Int64) :
    (tx.seenAt P now).hash P = tx.hash P :=
  tx.hash_cacheHash

namespace Node

variable {E S : Type}

/-- A handler that uses the server only. -/
def onServer {α : Type} (m : Act (Server E S) Err α) : Act (Node E S) Err α :=
  Act.on toServer (fun s n => { n with toServer := s }) m

/-- A call on the chain. -/
def onChain {α : Type} (m : Act (Blockchain E S) Err α) : Act (Node E S) Err α :=
  Act.on (fun n => n.chain) (fun bc n => { n with chain := bc }) m

/-- A call on the pool. -/
def onPool {α : Type} (m : Act TxPool Err α) : Act (Node E S) Err α :=
  Act.on memPool (fun p n => { n with memPool := p }) m

/-- `go s.broadcastTx(tx)`, `go s.broadcastBlock(b)`. -/
def launch (b : Broadcast) : Act (Node E S) Err Unit :=
  Act.modify fun n => { n with launched := n.launched ++ [b] }

variable (P : Primitives) (C : Codecs)

/-! ### Transactions and blocks -/

/-- `Server.ProcessTransaction`; `BroadcastTransaction`, which the JSON-RPC server calls, is the
same. -/
def processTransaction (tx : Transaction) (now : Int64) : Act (Node E S) Err Unit := do
  let n ← Act.get
  if n.memPool.contains (tx.hash P) then pure ()
  else do
    Act.lift (tx.verify P)
    launch (.transaction (tx.seenAt P now))
    onPool (TxPool.add P (tx.seenAt P now))

/-- `strings.Contains`. -/
def textContains (text part : String) : Prop := part.toList <:+: text.toList

instance (text part : String) : Decidable (textContains text part) :=
  inferInstanceAs (Decidable (_ <:+: _))

section Blocks

variable [ConsensusEngine P E] [Storage P S]

/-- `Server.processBlock`. -/
def processBlock (fuel : ℕ) (sender : NetAddr) (b : Block) : Act (Node E S) Err Unit := do
  let added ← Act.attempt (onChain (Blockchain.addBlock P fuel b))
  match added with
  | .error e =>
    if textContains e.message "too high" then onServer (Server.requestBlocksSync C sender)
    else if textContains e.message "chain already contains block" then pure ()
    else Act.lift (.err e)
  | .ok _ => launch (.block b)

/-- `Server.createNewBlock`, on a node with a private key. -/
def createNewBlock [SealingEngine P E] (fuel : ℕ) (key : PrivateKey) (tick : Tick) :
    Act (Node E S) Err Unit := do
  let n ← Act.get
  let b ← Act.lift (n.chain.assembleBlock P key n.memPool.pending.txx tick)
  onChain (Blockchain.addBlock P fuel b)
  Act.modify fun n => { n with memPool := n.memPool.clearPending }
  launch (.block b)

/-- One tick of `ValidatorLoop`, which runs on a node with a private key only. -/
def validatorTick [SealingEngine P E] (fuel : ℕ) (tick : Tick) : Act (Node E S) Err Unit := do
  let n ← Act.get
  match n.privateKey with
  | none => pure ()
  | some key => createNewBlock P fuel key tick

end Blocks

/-! ### Discovery -/

/-- `s.Transports[0]`. -/
def firstTransport (n : Node E S) : Outcome Err (NetAddr × Transport) :=
  match n.transports with
  | [] => .panic .sliceBounds
  | tr :: _ => .ok tr

/-- `Server.handleGetPeers`. -/
def handleGetPeers (moment : Moment) (sender : NetAddr) : Act (Node E S) Err Unit := do
  let n ← Act.get
  let peers := moment.peerOrder.filter fun addr => (n.peers addr).isSome && addr != sender
  let data ← Act.lift (C.sharePeers.encode peers)
  let (_, tr) ← Act.lift n.firstTransport
  let payload := (newMessage .sharePeers data).bytes n.gobId
  Act.lift (tr.sendMessage sender payload)
  Act.modify fun n => { n with sent := n.sent ++ [⟨sender, payload⟩] }

/-- The body of the loop of `handleSharePeers`: an unknown peer is called. -/
def dial (addr : NetAddr) : Act (Node E S) Err Unit := do
  let n ← Act.get
  if (n.peers addr).isSome then pure ()
  else do
    let (self, _) ← Act.lift n.firstTransport
    if addr ≠ self then Act.modify fun n => { n with dialed := n.dialed ++ [addr] } else pure ()

/-- `Server.handleSharePeers`. -/
def handleSharePeers (peers : List NetAddr) : Act (Node E S) Err Unit :=
  Act.forEach dial peers

/-! ### Messages -/

variable [ConsensusEngine P E] [Storage P S]

/-- The cases of `ProcessMessage`. -/
def dispatch (fuel : ℕ) (moment : Moment) (msg : DecodedMessage) : Act (Node E S) Err Unit :=
  match msg.data with
  | .transaction tx => processTransaction P tx moment.now
  | .block b => processBlock P C fuel msg.sender b
  | .getBlocks req => onServer (Server.processGetBlocks P C fuel msg.sender req)
  | .blocks batch => onServer (Server.processBlocks P fuel batch)
  | .status st => onServer (Server.processStatusMessage C msg.sender st)
  | .getStatus => onServer (Server.processGetStatusMessage C msg.sender)
  | .getPeers => handleGetPeers C moment msg.sender
  | .sharePeers peers => handleSharePeers peers

/-- `Server.ProcessMessage`. Its argument is a pointer. -/
def processMessage (fuel : ℕ) (moment : Moment) (msg : Option DecodedMessage) :
    Act (Node E S) Err Unit := do
  let msg ← Act.lift (Outcome.deref msg)
  dispatch P C fuel moment msg

/-- What the loop of `Start` does with one RPC; `decoded` is the answer of `RPCDecodeFunc`, which
comes with a nil pointer if it is an error. Errors are logged. -/
def startIteration (fuel : ℕ) (moment : Moment) (decoded : Outcome Err DecodedMessage) :
    Act (Node E S) Err Unit := do
  let msg ← Act.attempt (Act.lift decoded)
  let _ ← Act.attempt (processMessage P C fuel moment msg.toOption)
  pure ()

/-! ### Construction -/

/-- `genesisBlock`. -/
def genesisBlock : Block := newBlock
  { version := 1
    dataHash := Hash.zero
    prevBlockHash := Hash.zero
    stateRoot := Hash.zero
    height := 0
    timestamp := 0
    nonce := 0
    difficulty := 0
    coinbase := Address.zero } []

/-- `network.ServerOpts`, as far as the handlers use it. -/
structure ServerOpts (E S : Type) where
  id : String
  gobId : ℕ
  privateKey : Option PrivateKey
  consensus : Option E
  storage : S
  transports : List (NetAddr × Transport)

/-- `NewServer`; `fuel` bounds the reading of the store. -/
def newServer (fuel : ℕ) (opts : ServerOpts E S) : Outcome Err (Node E S) := do
  let bc ← Blockchain.newBlockchain P fuel genesisBlock opts.storage
  pure
    { id := opts.id
      gobId := opts.gobId
      chain := match opts.consensus with
        | none => bc
        | some e => bc.setConsensus e
      peers := fun _ => none
      sent := []
      memPool := TxPool.new TxPool.defaultTxPoolMaxLength
      privateKey := opts.privateKey
      transports := opts.transports
      launched := []
      dialed := [] }

/-! ### What the handlers do to pool and chain -/

variable {P C}

omit [ConsensusEngine P E] [Storage P S] in
theorem onChain_apply {α : Type} {m : Act (Blockchain E S) Err α} {n : Node E S}
    {o : Outcome Err α} {bc : Blockchain E S} (hcall : m n.chain = (o, bc)) :
    onChain m n = (o, { n with chain := bc }) := by
  unfold onChain
  rw [Act.on_apply, hcall]

section Admission

omit [ConsensusEngine P E] [Storage P S]

/-- The ways in which `ProcessTransaction` ends. -/
inductive Admission (P : Primitives) (tx : Transaction) (now : Int64) (n : Node E S) :
    Outcome Err Unit → Node E S → Prop
  | known (contained : n.memPool.contains (tx.hash P)) : Admission P tx now n (.ok ()) n
  | refused {o : Outcome Err Unit} (absent : ¬ n.memPool.contains (tx.hash P))
      (verify : tx.verify P = o) (stop : ∀ u, o ≠ .ok u) : Admission P tx now n o n
  | admitted {all : TxSortedMap} (absent : ¬ n.memPool.contains (tx.hash P))
      (verified : tx.verify P = .ok ()) (indexed : all.Indexed P) :
      Admission P tx now n (.ok ())
        { n with
          memPool := { n.memPool with
            all := all
            pending := n.memPool.pending.add P (tx.seenAt P now) }
          launched := n.launched ++ [.transaction (tx.seenAt P now)] }

/-- **Every call of `ProcessTransaction` is one of the listed steps.** -/
theorem processTransaction_step {n : Node E S} (hpool : n.memPool.Sound P) (tx : Transaction)
    (now : Int64) : Admission P tx now n (processTransaction P tx now n).1
      (processTransaction P tx now n).2 := by
  unfold processTransaction
  rw [Act.get_bind_apply]
  by_cases hknown : n.memPool.contains (tx.hash P)
  · rw [if_pos hknown]
    exact .known hknown
  rw [if_neg hknown]
  by_cases hverify : tx.verify P = .ok ()
  · have habsent : ¬ n.memPool.contains ((tx.seenAt P now).hash P) := by
      rwa [Transaction.hash_seenAt]
    obtain ⟨all, hadd, hall⟩ := hpool.add_of_absent habsent
    rw [hverify, Act.bind_apply_ok (Act.lift_apply _ _)]
    unfold launch onPool
    rw [Act.modify_bind_apply, Act.on_apply]
    simp only [hadd]
    exact .admitted hknown hverify hall
  · have hstop : ∀ u, tx.verify P ≠ .ok u := fun _ => hverify
    rw [Act.bind_apply_stop (Act.lift_apply _ _) hstop]
    exact .refused hknown rfl hstop

theorem Admission.of_call {tx : Transaction} {now : Int64} {n n' : Node E S}
    {o : Outcome Err Unit} (hpool : n.memPool.Sound P)
    (hcall : processTransaction P tx now n = (o, n')) : Admission P tx now n o n' := by
  have hstep := processTransaction_step hpool tx now
  rwa [hcall] at hstep

theorem Admission.sound {tx : Transaction} {now : Int64} {n n' : Node E S} {o : Outcome Err Unit}
    (hstep : Admission P tx now n o n') (hpool : n.memPool.Sound P) : n'.memPool.Sound P := by
  cases hstep with
  | known _ => exact hpool
  | refused _ _ _ => exact hpool
  | admitted _ _ indexed => exact ⟨indexed, hpool.pending.add _, hpool.room⟩

theorem Admission.chain {tx : Transaction} {now : Int64} {n n' : Node E S} {o : Outcome Err Unit}
    (hstep : Admission P tx now n o n') : n'.chain = n.chain := by
  cases hstep <;> rfl

/-- What `ProcessTransaction` admits has passed `Verify`. -/
theorem Admission.verified {tx : Transaction} {now : Int64} {n n' : Node E S}
    {o : Outcome Err Unit} (hstep : Admission P tx now n o n')
    (hold : ∀ tx ∈ n.memPool.pending.txx, tx.verify P = .ok ()) :
    ∀ tx ∈ n'.memPool.pending.txx, tx.verify P = .ok () := by
  cases hstep with
  | known _ => exact hold
  | refused _ _ _ => exact hold
  | admitted _ verified _ =>
    intro tx' hmem
    rcases TxSortedMap.mem_txx_add hmem with hmem | rfl
    · exact hold tx' hmem
    · exact verified

end Admission

theorem memPool_newServer {fuel : ℕ} {opts : ServerOpts E S} {n : Node E S}
    (hnew : newServer P fuel opts = .ok n) :
    n.memPool = TxPool.new TxPool.defaultTxPoolMaxLength := by
  obtain ⟨bc, -, hn⟩ := Outcome.bind_eq_ok.mp hnew
  rw [← Outcome.ok.inj hn]

theorem sound_newServer {fuel : ℕ} {opts : ServerOpts E S} {n : Node E S}
    (hnew : newServer P fuel opts = .ok n) : n.memPool.Sound P := by
  rw [memPool_newServer hnew]
  exact TxPool.sound_new (by decide)

/-! ### A concrete node -/

/-- A validator without an engine, on a store in memory. -/
def sampleOpts : ServerOpts PoWEngine MemoryStore where
  id := "A"
  gobId := 65
  privateKey := some sampleKey
  consensus := none
  storage := MemoryStore.new
  transports := []

def sampleNode : Node PoWEngine MemoryStore where
  id := "A"
  gobId := 65
  chain := Blockchain.sampleChain
  peers _ := none
  sent := []
  memPool := TxPool.new TxPool.defaultTxPoolMaxLength
  privateKey := some sampleKey
  transports := []
  launched := []
  dialed := []

/-- Codecs for which every content is malformed. -/
def noContent : Codecs where
  transaction := ⟨fun _ => .ok [], fun _ => .err (.library "EOF")⟩
  block := ⟨fun _ => .ok [], fun _ => .err (.library "EOF")⟩
  getBlocks := ⟨fun _ => .ok [], fun _ => .err (.library "EOF")⟩
  blocks := ⟨fun _ => .ok [], fun _ => .err (.library "EOF")⟩
  status := ⟨fun _ => .ok [], fun _ => .err (.library "EOF")⟩
  sharePeers := ⟨fun _ => .ok [], fun _ => .err (.library "EOF")⟩

def sampleMoment : Moment := ⟨0, []⟩

theorem newServer_sampleNode : newServer .sample 1 sampleOpts = .ok sampleNode := rfl

end Node

end Blockz
