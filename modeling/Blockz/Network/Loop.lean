import Blockz.Network.Interleaving

/-!
# A node with all its goroutines

`Interleaving` takes the calls of `ProcessTransaction` and of `createNewBlock` apart. Here the loop
of `Start` is taken apart as well: between two calls on the chain that `ProcessMessage` makes, the
validator loop or a goroutine of the JSON-RPC server may run.

* `Handler` — where `ProcessMessage` stands.
* `Handler.dispatch_extends` — the steps of one message, with nothing in between, are `dispatch`.
* `Process` — a node with the calls that are under way in its goroutines, and `Process.Step` — one
  of them takes its turn. A turn that panics ends the process, so no step follows it.
* `Process.Step.adds` — a turn leaves the chain as it is, or calls `AddBlock` on a block that is at
  hand.
-/

namespace Blockz

open Effect

/-! ### Broadcasts and requests -/

/-- The message of `Server.broadcastTx`. -/
def broadcastTx (C : Codecs) (tx : Transaction) : Outcome Err Message := do
  let data ← C.transaction.encode tx
  pure (newMessage .tx data)

/-- The message of `Server.broadcastBlock`. -/
def broadcastBlock (C : Codecs) (b : Block) : Outcome Err Message := do
  let data ← C.block.encode b
  pure (newMessage .block data)

/-- What the goroutine hands to `broadcast`. -/
def Broadcast.message (C : Codecs) : Broadcast → Outcome Err Message
  | .transaction tx => broadcastTx C tx
  | .block b => broadcastBlock C b

/-- `Server.sendGetStatus`. -/
def Server.sendGetStatus {E S : Type} (addr : NetAddr) : Act (Server E S) Err Unit :=
  Server.send addr (newMessage .getStatus [])

namespace Node

variable {E S : Type}

/-- `Server.sendGetPeers`. -/
def sendGetPeers (dst : NetAddr) : Act (Node E S) Err Unit := do
  let n ← Act.get
  let (_, tr) ← Act.lift n.firstTransport
  let payload := (newMessage .getPeers []).bytes n.gobId
  Act.lift (tr.sendMessage dst payload)
  Act.modify fun n => { n with sent := n.sent ++ [⟨dst, payload⟩] }

/-- `Server.addPeer`: the first transport stays. -/
def addPeer (addr : NetAddr) (tr : Transport) (n : Node E S) : Node E S :=
  { n with peers := fun a => if a = addr then some ((n.peers a).getD tr) else n.peers a }

/-- A sequence of calls on the chain is a call on the chain. -/
theorem onChain_bind {α β : Type} (m : Act (Blockchain E S) Err α)
    (f : α → Act (Blockchain E S) Err β) :
    (onChain (m >>= f) : Act (Node E S) Err β) = onChain m >>= fun a => onChain (f a) := by
  unfold onChain
  refine Act.on_bind ?_ ?_ m f
  · exact fun _ _ => rfl
  · exact fun _ _ _ => rfl

end Node

/-! ### Steps that are left -/

/-- The steps that a call of `ProcessTransaction` has before it, at most. -/
def CallStage.left : CallStage → ℕ
  | .lookup => 8
  | .verify => 7
  | .add .count => 6
  | .add .first => 5
  | .add (.remove _) => 4
  | .add .contains => 3
  | .add .addAll => 2
  | .add .addPending => 1
  | .add .done => 1

theorem CallStage.left_pos (stage : CallStage) : 0 < stage.left := by
  rcases stage with _ | _ | _ | _ | _ | _ | _ | _ | _ <;> exact Nat.succ_pos _

theorem Call.adding_eq_some {tx : Transaction} {stage : TxPool.AddStage} {c : Call}
    (h : Call.adding tx stage = some c) : c = ⟨tx, .add stage⟩ ∧ stage ≠ .done := by
  cases stage with
  | done => exact nomatch h
  | count => exact ⟨(Option.some.inj h).symm, nofun⟩
  | first => exact ⟨(Option.some.inj h).symm, nofun⟩
  | remove h' => exact ⟨(Option.some.inj h).symm, nofun⟩
  | contains => exact ⟨(Option.some.inj h).symm, nofun⟩
  | addAll => exact ⟨(Option.some.inj h).symm, nofun⟩
  | addPending => exact ⟨(Option.some.inj h).symm, nofun⟩

theorem TxPool.left_addStage {P : Primitives} {tx : Transaction} {stage next : AddStage}
    {p p' : TxPool} (hcall : addStage P tx stage p = (.ok next, p')) (hnext : next ≠ .done) :
    (CallStage.add next).left < (CallStage.add stage).left := by
  cases stage with
  | count =>
    obtain rfl := Outcome.ok.inj (Prod.mk.inj hcall).1
    split <;> decide
  | first =>
    obtain ⟨h, -, hcall⟩ := Act.lift_bind_eq_ok.mp hcall
    obtain rfl := Outcome.ok.inj (Prod.mk.inj hcall).1
    exact Nat.lt_succ_self 4
  | remove h =>
    obtain rfl := Outcome.ok.inj (Prod.mk.inj hcall).1
    exact Nat.lt_succ_self 3
  | contains =>
    obtain rfl := Outcome.ok.inj (Prod.mk.inj hcall).1
    split at hnext
    · rename_i habsent
      rw [if_pos habsent]
      decide
    · exact absurd rfl hnext
  | addAll =>
    obtain rfl := Outcome.ok.inj (Prod.mk.inj hcall).1
    exact Nat.lt_succ_self 1
  | addPending => exact absurd (Outcome.ok.inj (Prod.mk.inj hcall).1).symm hnext
  | done => exact absurd (Outcome.ok.inj (Prod.mk.inj hcall).1).symm hnext

/-- Every step brings a call closer to its end. -/
theorem Call.left_step {E S : Type} {P : Primitives} {now : Int64} {n n' : Node E S} (c : Call)
    {c' : Call} (hcall : c.step P now n = (.ok (some c'), n')) : c'.stage.left < c.stage.left := by
  obtain ⟨tx, stage⟩ := c
  cases stage with
  | lookup =>
    have hnext := Outcome.ok.inj (Prod.mk.inj hcall).1
    split at hnext
    · exact nomatch hnext
    · rw [← Option.some.inj hnext]
      exact Nat.lt_succ_self 7
  | verify =>
    obtain ⟨_, -, hcall⟩ := Act.lift_bind_eq_ok.mp hcall
    rw [← Option.some.inj (Outcome.ok.inj (Prod.mk.inj hcall).1)]
    exact Nat.lt_succ_self 6
  | add stage =>
    obtain ⟨next, n₁, hpool, hnext⟩ := Act.bind_eq_ok.mp hcall
    obtain ⟨rfl, hdone⟩ := Call.adding_eq_some (Outcome.ok.inj (Prod.mk.inj hnext).1)
    have hstage : (TxPool.addStage P tx stage n.memPool).1 = .ok next := (Prod.mk.inj hpool).1
    exact TxPool.left_addStage (Act.eq_mk_of_fst hstage) hdone

/-! ### The message loop, step by step -/

/-- Where the loop of `Start` stands in `ProcessMessage`. -/
inductive Handler
  -- before the next message
  | idle
  -- in `ProcessTransaction`
  | submitting (c : Call)
  -- in `processBlock`, before and after `AddBlock`
  | adding (sender : NetAddr) (b : Block)
  | added (sender : NetAddr) (b : Block) (result : Except Err Unit)
  -- before the height is read for a `GetBlocksMessage`
  | asking (sender : NetAddr) (last : UInt32)
  -- in `processGetBlocks`, before the height is read that bounds the loop
  | bounding (sender : NetAddr) (first : UInt32)
  -- at the head of its loop
  | collecting (sender : NetAddr) (i last : UInt32) (blocks : List Block)
  -- at the head of the loop of `processBlocks`
  | batch (rest : List Block)

namespace Handler

variable {E S : Type} (P : Primitives) (C : Codecs)

/-- `ProcessMessage` up to its first step. -/
def start (moment : Moment) (msg : DecodedMessage) : Act (Node E S) Err Handler :=
  match msg.data with
  | .transaction tx => pure (.submitting ⟨tx, .lookup⟩)
  | .block b => pure (.adding msg.sender b)
  | .getBlocks req => do
    let n ← Act.get
    pure (if req.last = 0 ∨ n.chain.height < req.last then .bounding msg.sender req.first
      else .collecting msg.sender req.first req.last [])
  | .blocks received => pure (.batch received.blocks)
  | .status st => do
    let n ← Act.get
    pure (if n.chain.height < st.height then .asking msg.sender st.height else .idle)
  | .getStatus => do
    Node.onServer (Server.processGetStatusMessage C msg.sender)
    pure .idle
  | .getPeers => do
    Node.handleGetPeers C moment msg.sender
    pure .idle
  | .sharePeers peers => do
    Node.handleSharePeers peers
    pure .idle

variable [ConsensusEngine P E] [Storage P S]

/-- The next step; the handler that has returned is `idle`. -/
def step (fuel : ℕ) (now : Int64) : Handler → Act (Node E S) Err Handler
  | .idle => pure .idle
  | .submitting c => do
    let next ← c.step P now
    pure (next.elim .idle .submitting)
  | .adding sender b => do
    let result ← Act.attempt (Node.onChain (Blockchain.addBlock P fuel b))
    pure (.added sender b result)
  | .added _ b (.ok _) => do
    Node.launch (.block b)
    pure .idle
  | .added sender _ (.error e) =>
    if Node.textContains e.message "too high" then pure (.asking sender 0)
    else if Node.textContains e.message "chain already contains block" then pure .idle
    else Act.lift (.err e)
  | .asking sender last => do
    let n ← Act.get
    Node.onServer (Server.sendGetBlocks C sender ⟨n.chain.height + 1, last⟩)
    pure .idle
  | .bounding sender first => do
    let n ← Act.get
    pure (.collecting sender first n.chain.height [])
  | .collecting sender i last blocks => do
    let n ← Act.get
    if i ≤ last then do
      let block ← Act.lift (n.chain.getBlock P i)
      pure (.collecting sender (i + 1) last (blocks ++ [block]))
    else do
      let data ← Act.lift (C.blocks.encode ⟨blocks⟩)
      Node.onServer (Server.send sender (newMessage .blocks data))
      pure .idle
  | .batch [] => pure .idle
  | .batch (b :: rest) => do
    Node.onChain (Blockchain.addBlock P fuel b)
    pure (.batch rest)

/-- The block that the next step gives to `AddBlock`. -/
def AtHand (h : Handler) (b : Block) : Prop :=
  (∃ sender, h = .adding sender b) ∨ ∃ rest, h = .batch (b :: rest)

/-- The steps up to the return, at most `k` of them, with nothing in between. -/
def run (fuel : ℕ) (now : Int64) : ℕ → Handler → Act (Node E S) Err Unit
  | _, .idle => pure ()
  | 0, _ => Act.lift .outOfFuel
  | k + 1, h => h.step P C fuel now >>= run fuel now k

/-! ### The steps are the call -/

variable {P C} {fuel : ℕ} {now : Int64}

@[simp] theorem run_idle (k : ℕ) :
    (run P C fuel now k .idle : Act (Node E S) Err Unit) = pure () := by
  cases k <;> rfl

theorem run_succ (h : Handler) (hbusy : h ≠ .idle) (k : ℕ) :
    (run P C fuel now (k + 1) h : Act (Node E S) Err Unit) =
      h.step P C fuel now >>= run P C fuel now k := by
  cases h <;> first | rfl | exact absurd rfl hbusy

/-- The call of the loop is a call like those of the other goroutines. -/
theorem run_submitting {k : ℕ} (c : Call) (hk : c.stage.left ≤ k) (n : Node E S) :
    run P C fuel now k (.submitting c) n =
      (callSteps P now k (some c) >>= fun _ => pure ()) n := by
  induction k generalizing c n with
  | zero => exact absurd hk (Nat.not_le_of_lt c.stage.left_pos)
  | succ k ih =>
    rw [run_succ (.submitting c) nofun, callSteps, step, bind_assoc, bind_assoc]
    simp only [pure_bind]
    rcases hcall : c.step P now n with ⟨o, n'⟩
    cases o with
    | ok next =>
      rw [Act.bind_apply_ok hcall, Act.bind_apply_ok hcall]
      cases next with
      | none =>
        rw [Option.elim_none, run_idle, Act.bind_apply_ok (callSteps_none now k n')]
      | some c' => exact ih c' (Nat.le_of_lt_succ ((c.left_step hcall).trans_le hk)) n'
    | err e => rw [Act.bind_apply_err hcall, Act.bind_apply_err hcall]
    | panic p => rw [Act.bind_apply_panic hcall, Act.bind_apply_panic hcall]
    | outOfFuel => rw [Act.bind_apply_outOfFuel hcall, Act.bind_apply_outOfFuel hcall]

/-- The loop of `processGetBlocks`. Nothing is written, so the state stays until the answer goes
out. -/
theorem run_collecting {sender : NetAddr} {last : UInt32} {n : Node E S} {visits : ℕ} :
    ∀ {k : ℕ} {i : UInt32} {acc : List Block}, visits ≤ k →
      Server.collectBlocks P n.chain last visits i acc ≠ .outOfFuel →
      run P C fuel now k (.collecting sender i last acc) n =
        (Act.lift (Server.collectBlocks P n.chain last visits i acc) >>= fun blocks =>
          Act.lift (C.blocks.encode ⟨blocks⟩) >>= fun data =>
            Node.onServer (Server.send sender (newMessage .blocks data))) n := by
  induction visits with
  | zero => exact fun _ hend => absurd rfl hend
  | succ visits ih =>
    intro k i acc hk hend
    obtain ⟨k, rfl⟩ : ∃ k', k = k' + 1 := ⟨k - 1, by omega⟩
    rw [run_succ (.collecting sender i last acc) nofun, step, bind_assoc, Act.get_bind_apply]
    rw [Server.collectBlocks] at hend ⊢
    by_cases hle : i ≤ last
    · rw [if_pos hle] at hend ⊢
      rw [if_pos hle]
      cases hget : n.chain.getBlock P i with
      | ok block =>
        rw [hget, Outcome.bind_ok] at hend
        exact ih (Nat.le_of_succ_le_succ hk) hend
      | err e => rfl
      | panic p => rfl
      | outOfFuel => rfl
    · rw [if_neg hle, if_neg hle]
      simp only [bind_assoc, pure_bind, run_idle, bind_pure_unit]
      rfl

/-- The loop of `processBlocks`. -/
theorem run_batch {bs : List Block} : ∀ {k : ℕ}, bs.length < k →
    (run P C fuel now k (.batch bs) : Act (Node E S) Err Unit) =
      Node.onChain (Act.forEach (Blockchain.addBlock P fuel) bs) := by
  induction bs with
  | nil =>
    intro k hk
    obtain ⟨k, rfl⟩ : ∃ k', k = k' + 1 := ⟨k - 1, by omega⟩
    rw [run_succ (.batch []) nofun, step, pure_bind, run_idle]
    rfl
  | cons b bs ih =>
    intro k hk
    obtain ⟨k, rfl⟩ : ∃ k', k = k' + 1 := ⟨k - 1, by omega⟩
    have hloop : (Node.onChain (Act.forEach (Blockchain.addBlock P fuel) (b :: bs)) :
        Act (Node E S) Err Unit) =
          Node.onChain (Blockchain.addBlock P fuel b) >>= fun _ =>
            Node.onChain (Act.forEach (Blockchain.addBlock P fuel) bs) :=
      Node.onChain_bind _ _
    rw [run_succ (.batch (b :: bs)) nofun, step, bind_assoc, hloop]
    refine bind_congr fun _ => ?_
    rw [pure_bind, ih (Nat.lt_of_succ_lt_succ hk)]

/-- The request for blocks. -/
theorem run_asking (sender : NetAddr) (last : UInt32) (k : ℕ) (n : Node E S) :
    run P C fuel now (k + 1) (.asking sender last) n =
      Node.onServer (Server.sendGetBlocks C sender ⟨n.chain.height + 1, last⟩) n := by
  rw [run_succ (.asking sender last) nofun, step, bind_assoc, Act.get_bind_apply]
  simp only [bind_assoc, pure_bind, run_idle]
  exact congrFun (bind_pure _) n

/-- `processBlock`. -/
theorem run_adding (sender : NetAddr) (b : Block) :
    (run P C fuel now 3 (.adding sender b) : Act (Node E S) Err Unit) =
      Node.processBlock P C fuel sender b := by
  rw [run_succ (.adding sender b) nofun, step, bind_assoc]
  refine bind_congr fun result => ?_
  rw [pure_bind, run_succ (.added sender b result) nofun]
  cases result with
  | ok _ =>
    rw [step, bind_assoc]
    simp only [pure_bind, run_idle]
    exact bind_pure _
  | error e =>
    show (if _ then _ else if _ then _ else _) >>= _ = if _ then _ else if _ then _ else _
    split
    · rw [pure_bind]
      exact funext fun n => run_asking sender 0 0 n
    · split
      · rw [pure_bind, run_idle]
      · rfl

omit [ConsensusEngine P E] in
/-- `processGetBlocks` collects the blocks and then sends them. -/
theorem onServer_processGetBlocks (fuel : ℕ) (sender : NetAddr) (req : GetBlocksMessage)
    (n : Node E S) :
    Node.onServer (Server.processGetBlocks P C fuel sender req) n =
      (Act.lift (Server.collectBlocks P n.chain (n.toServer.lastRequested req) fuel req.first [])
        >>= fun blocks => Act.lift (C.blocks.encode ⟨blocks⟩) >>= fun data =>
          Node.onServer (Server.send sender (newMessage .blocks data))) n := by
  unfold Server.processGetBlocks Node.onServer
  rw [Act.on_apply, Act.get_bind_apply]
  cases Server.collectBlocks P n.chain (n.toServer.lastRequested req) fuel req.first [] with
  | ok blocks =>
    rw [Act.bind_apply_ok (Act.lift_apply _ _), Act.bind_apply_ok (Act.lift_apply _ _)]
    cases C.blocks.encode ⟨blocks⟩ <;> rfl
  | err e => rfl
  | panic p => rfl
  | outOfFuel => rfl

/-- **The steps of a message are its handling.** Without anything in between they do what `dispatch`
does, if they are given enough rounds. -/
theorem dispatch_extends (fuel : ℕ) (moment : Moment) (msg : DecodedMessage) :
    ∃ k, Act.Extends (Node.dispatch P C fuel moment msg : Act (Node E S) Err Unit)
      (start C moment msg >>= run P C fuel moment.now k) := by
  obtain ⟨sender, data⟩ := msg
  have hatomic : ∀ m : Act (Node E S) Err Unit,
      ((m >>= fun _ => pure .idle) >>= run P C fuel moment.now 0) = m := by
    intro m
    rw [bind_assoc]
    simp only [pure_bind, run_idle]
    exact bind_pure _
  cases data with
  | transaction tx =>
    -- `Contains`, `Verify`, and at most six calls of `Add` on the collections
    refine ⟨8, fun n _ => ?_⟩
    have hsteps : run P C fuel moment.now 8 (.submitting ⟨tx, .lookup⟩) n =
        (callSteps P moment.now 8 (some ⟨tx, .lookup⟩) >>= fun _ => pure ()) n :=
      run_submitting ⟨tx, .lookup⟩ le_rfl n
    rw [start, pure_bind, hsteps, processTransaction_eq_steps]
    rfl
  | block b =>
    -- `AddBlock`, what follows it, and a request for more
    refine ⟨3, fun n _ => ?_⟩
    rw [start, pure_bind, run_adding]
    rfl
  | getBlocks req =>
    -- one step for each block that is read
    refine ⟨fuel + 1, fun n hend => ?_⟩
    have hserved := onServer_processGetBlocks (P := P) (C := C) fuel sender req n
    -- the loop of the handler has not used up its rounds, because the call has not
    have hvisits : Server.collectBlocks P n.chain (n.toServer.lastRequested req) fuel req.first [] ≠
        .outOfFuel := by
      intro hout
      refine hend ?_
      show (Node.onServer (Server.processGetBlocks P C fuel sender req) n).1 = _
      rw [hserved, hout]
      rfl
    rw [start, bind_assoc, Act.get_bind_apply, pure_bind]
    refine Eq.trans ?_ hserved.symm
    unfold Server.lastRequested at hvisits ⊢
    -- with `To = 0` the height is read in a step of its own
    split
    · rename_i hbound
      rw [if_pos hbound] at hvisits
      rw [run_succ (.bounding sender req.first) nofun, step, bind_assoc, Act.get_bind_apply,
        pure_bind, run_collecting le_rfl hvisits]
    · rename_i hbound
      rw [if_neg hbound] at hvisits
      rw [run_collecting (Nat.le_succ fuel) hvisits]
  | blocks received =>
    -- one step for each block that is added
    refine ⟨received.blocks.length + 1, fun n _ => ?_⟩
    rw [start, pure_bind, run_batch (Nat.lt_succ_self _)]
    rfl
  | status st =>
    -- nothing, or a request for blocks
    refine ⟨1, fun n _ => ?_⟩
    rw [start, bind_assoc, Act.get_bind_apply, pure_bind]
    show _ = Node.onServer (Server.processStatusMessage C sender st) n
    unfold Server.processStatusMessage Node.onServer
    rw [Act.on_apply, Act.get_bind_apply]
    split
    · exact run_asking sender st.height 0 n
    · rw [run_idle]
      rfl
  -- the other handlers are one step
  | getStatus => exact ⟨0, fun n _ => congrFun (hatomic _) n⟩
  | getPeers => exact ⟨0, fun n _ => congrFun (hatomic _) n⟩
  | sharePeers peers => exact ⟨0, fun n _ => congrFun (hatomic _) n⟩

end Handler

/-! ### A process -/

/-- A node with everything that is under way in its goroutines. -/
structure Process (E S : Type) extends Threads E S where
  -- the loop of `Start`
  handler : Handler

/-- Which goroutine takes its turn, and what it gets from outside. -/
inductive Turn
  -- a goroutine of the JSON-RPC server calls `ProcessTransaction`, and the call takes a step
  | submit (id : ℕ) (tx : Transaction)
  | advance (id : ℕ) (now : Int64)
  -- the validator loop
  | produce (tick : Tick)
  -- the loop of `Start` takes a message, and the handling takes a step
  | receive (moment : Moment) (msg : DecodedMessage)
  | handle (now : Int64)
  -- the discovery loop
  | greet (addr : NetAddr)
  | askPeers (addr : NetAddr)
  -- a goroutine of `initTransports`
  | meet (addr : NetAddr) (tr : Transport)

namespace Process

variable {E S : Type}

/-- A node in which no call is under way. -/
def start (n : Node E S) : Process E S := { Threads.start n with handler := .idle }

variable {P : Primitives} [ConsensusEngine P E] [SealingEngine P E] [Storage P S] {C : Codecs}

/-- One turn, with what it returned. A call that returns an error is over; one that panics is the
end of the process. -/
inductive Step (P : Primitives) [ConsensusEngine P E] [SealingEngine P E] [Storage P S]
    (C : Codecs) (s : Process E S) : Turn → Outcome Err Unit → Process E S → Prop
  | submit {id : ℕ} {tx : Transaction} (free : s.calls id = none) :
      Step P C s (.submit id tx) (.ok ())
        { s with calls := Function.update s.calls id (some ⟨tx, .lookup⟩) }
  | advance {id : ℕ} {now : Int64} {c : Call} {o : Outcome Err (Option Call)} {n' : Node E S}
      (running : s.calls id = some c) (call : c.step P now s.node = (o, n'))
      (returns : o.Returns) :
      Step P C s (.advance id now) (o >>= fun _ => .ok ())
        { s with node := n', calls := Function.update s.calls id o.toOption.join }
  | produce {tick : Tick} {key : PrivateKey} {fuel : ℕ} {o : Outcome Err Production}
      {n' : Node E S} (held : s.node.privateKey = some key)
      (call : s.producer.step P fuel key tick s.node = (o, n')) (returns : o.Returns) :
      Step P C s (.produce tick) (o >>= fun _ => .ok ())
        { s with node := n', producer := o.toOption.getD .idle }
  | receive {moment : Moment} {msg : DecodedMessage} {o : Outcome Err Handler} {n' : Node E S}
      (free : s.handler = .idle) (call : Handler.start C moment msg s.node = (o, n'))
      (returns : o.Returns) :
      Step P C s (.receive moment msg) (o >>= fun _ => .ok ())
        { s with node := n', handler := o.toOption.getD .idle }
  | handle {now : Int64} {fuel : ℕ} {o : Outcome Err Handler} {n' : Node E S}
      (call : s.handler.step P C fuel now s.node = (o, n')) (returns : o.Returns) :
      Step P C s (.handle now) (o >>= fun _ => .ok ())
        { s with node := n', handler := o.toOption.getD .idle }
  | greet {addr : NetAddr} {o : Outcome Err Unit} {n' : Node E S}
      (call : Node.onServer (Server.sendGetStatus addr) s.node = (o, n')) (returns : o.Returns) :
      Step P C s (.greet addr) o { s with node := n' }
  | askPeers {addr : NetAddr} {o : Outcome Err Unit} {n' : Node E S}
      (call : Node.sendGetPeers addr s.node = (o, n')) (returns : o.Returns) :
      Step P C s (.askPeers addr) o { s with node := n' }
  | meet {addr : NetAddr} {tr : Transport} :
      Step P C s (.meet addr tr) (.ok ()) { s with node := s.node.addPeer addr tr }

/-! ### What a turn does to the chain -/

/-- The block that a turn gives to `AddBlock`: the loop's, or the one of `createNewBlock`. -/
def AtHand (s : Process E S) (t : Turn) (b : Block) : Prop :=
  (∃ now, t = .handle now ∧ s.handler.AtHand b) ∨
    ∃ tick, t = .produce tick ∧ s.producer = .signed b ∧ s.node.privateKey.isSome = true

end Process

namespace Node

variable {E S : Type}

/-- Chain and key are the same. -/
def ChainKept (n n' : Node E S) : Prop := n'.chain = n.chain ∧ n'.privateKey = n.privateKey

instance : Std.Refl (ChainKept : Node E S → Node E S → Prop) where
  refl _ := ⟨rfl, rfl⟩

instance : IsTrans (Node E S) ChainKept where
  trans _ _ _ h₁ h₂ := ⟨h₂.1.trans h₁.1, h₂.2.trans h₁.2⟩

variable {P : Primitives} [ConsensusEngine P E] [Storage P S] {C : Codecs}

/-- A handler that is given no block. -/
theorem Quiet.chainKept {n n' : Node E S} (h : Quiet P (fun _ => False) n n') :
    ChainKept n n' := by
  refine ⟨?_, h.privateKey⟩
  refine h.chain.invariant (fun bc => bc = n.chain) rfl ?_
  exact fun hb => hb.elim

/-- The key is the same, and so is the chain, or it has had one call of `AddBlock`, which came back,
on a block of the given kind. -/
structure Adds (P : Primitives) [ConsensusEngine P E] [Storage P S] (given : Block → Prop)
    (n n' : Node E S) : Prop where
  privateKey : n'.privateKey = n.privateKey
  chain : n'.chain = n.chain ∨ ∃ b o, given b ∧ o.Returns ∧ Blockchain.Called P n.chain b o n'.chain

theorem Adds.of_chainKept {given : Block → Prop} {n n' : Node E S} (h : ChainKept n n') :
    Adds P given n n' :=
  ⟨h.2, Or.inl h.1⟩

theorem Adds.mono {given given' : Block → Prop} {n n' : Node E S} (h : Adds P given n n')
    (hmono : ∀ b, given b → given' b) : Adds P given' n n' := by
  refine ⟨h.privateKey, h.chain.imp_right ?_⟩
  rintro ⟨b, o, hb, hcall⟩
  exact ⟨b, o, hmono b hb, hcall⟩

theorem chainKept_of_quiet {α : Type} {m : Act (Node E S) Err α}
    (hm : Act.Moves (Quiet P (fun _ => False)) m) : Act.Moves ChainKept m :=
  fun n => (hm n).chainKept

end Node

namespace Process

variable {E S : Type} {P : Primitives} [ConsensusEngine P E] [SealingEngine P E] [Storage P S]
  {C : Codecs}

omit [ConsensusEngine P E] [SealingEngine P E] [Storage P S] in
theorem chainKept_call (c : Call) (now : Int64) :
    Act.Moves Node.ChainKept (c.step P now : Act (Node E S) Err (Option Call)) := by
  obtain ⟨tx, stage⟩ := c
  cases stage with
  | lookup => exact Act.Moves.get.bind fun _ => Act.Moves.pure _
  | verify =>
    exact (Act.Moves.lift _).bind fun _ =>
      Act.Moves.bind (fun _ => ⟨rfl, rfl⟩) fun _ => Act.Moves.pure _
  | add stage => exact Act.Moves.bind (fun _ => ⟨rfl, rfl⟩) fun _ => Act.Moves.pure _

omit [ConsensusEngine P E] [SealingEngine P E] [Storage P S] in
theorem chainKept_sendGetPeers (dst : NetAddr) :
    Act.Moves Node.ChainKept (Node.sendGetPeers dst : Act (Node E S) Err Unit) :=
  Act.Moves.get.bind fun _ => (Act.Moves.lift _).bind fun _ => (Act.Moves.lift _).bind fun _ _ =>
    ⟨rfl, rfl⟩

omit [SealingEngine P E] in
theorem chainKept_start (P : Primitives) [ConsensusEngine P E] [Storage P S] (moment : Moment)
    (msg : DecodedMessage) :
    Act.Moves Node.ChainKept (Handler.start C moment msg : Act (Node E S) Err Handler) := by
  obtain ⟨sender, data⟩ := msg
  cases data with
  | transaction tx => exact Act.Moves.pure _
  | block b => exact Act.Moves.pure _
  | getBlocks req => exact Act.Moves.get.bind fun _ => Act.Moves.pure _
  | blocks received => exact Act.Moves.pure _
  | status st => exact Act.Moves.get.bind fun _ => Act.Moves.pure _
  | getStatus =>
    exact (Node.chainKept_of_quiet (P := P)
      (Node.onServer_quiet (Server.processGetStatusMessage_fedBy sender))).bind
        fun _ => Act.Moves.pure _
  | getPeers =>
    exact (Node.chainKept_of_quiet (P := P) (Node.handleGetPeers_quiet moment sender)).bind
      fun _ => Act.Moves.pure _
  | sharePeers peers =>
    exact (Node.chainKept_of_quiet (P := P) (Node.handleSharePeers_quiet peers)).bind
      fun _ => Act.Moves.pure _

omit [SealingEngine P E] in
/-- A call of `AddBlock`, also one whose error is looked at afterwards. -/
theorem adds_addBlock {α β : Type} {given : Block → Prop} {b : Block} {fuel : ℕ}
    {m : Act (Node E S) Err α} {f : α → β} {o : Outcome Err β} {n n' : Node E S} (hb : given b)
    (hm : ∀ n, (m n).2 = (Node.onChain (Blockchain.addBlock P fuel b) n).2)
    (hend : ∀ n, (m n).1.Returns → (Blockchain.addBlock P fuel b n.chain).1.Returns)
    (hcall : (m >>= fun a => pure (f a)) n = (o, n')) (hreturns : o.Returns) :
    Node.Adds P given n n' := by
  have hmoves : Act.Moves (fun n n' => n' = (Node.onChain (Blockchain.addBlock P fuel b) n).2)
      (m >>= fun a => pure (f a)) := Act.Moves.bind_reads hm fun _ _ => rfl
  obtain rfl := hmoves.of_call hcall
  have hfirst : ((m >>= fun a => pure (f a)) n).1.Returns := by rwa [hcall]
  exact ⟨rfl, Or.inr ⟨b, _, hb, hend n (Act.returns_bind.mp hfirst).1, fuel, rfl⟩⟩

omit [SealingEngine P E] in
/-- What a step of the loop does to the chain. -/
theorem adds_handler {h : Handler} {fuel : ℕ} {now : Int64} {o : Outcome Err Handler}
    {n n' : Node E S} (hcall : h.step P C fuel now n = (o, n')) (hreturns : o.Returns) :
    Node.Adds P h.AtHand n n' := by
  have hkept : ∀ {given : Block → Prop},
      Act.Moves Node.ChainKept (h.step P C fuel now : Act (Node E S) Err Handler) →
        Node.Adds P given n n' := by
    intro given hmoves
    exact .of_chainKept (hmoves.of_call hcall)
  cases h with
  | idle => exact hkept (Act.Moves.pure _)
  | submitting c => exact hkept ((chainKept_call c now).bind fun _ => Act.Moves.pure _)
  | adding sender b =>
    have hend : ∀ n : Node E S,
        (Act.attempt (Node.onChain (Blockchain.addBlock P fuel b)) n).1.Returns →
          (Node.onChain (Blockchain.addBlock P fuel b) n).1.Returns :=
      fun n => Act.returns_attempt.mp
    exact adds_addBlock (Or.inl ⟨sender, rfl⟩) (Act.attempt_snd _) hend hcall hreturns
  | added sender b result =>
    cases result with
    | ok _ => exact hkept (Act.Moves.bind (fun _ => ⟨rfl, rfl⟩) fun _ => Act.Moves.pure _)
    | error e =>
      refine hkept ?_
      show Act.Moves _ (if _ then _ else if _ then _ else _)
      split
      · exact Act.Moves.pure _
      · split
        · exact Act.Moves.pure _
        · exact Act.Moves.lift _
  | asking sender last =>
    refine hkept (Act.Moves.get.bind fun _ => ?_)
    exact (Node.chainKept_of_quiet (P := P)
      (Node.onServer_quiet (Server.sendGetBlocks_fedBy sender _))).bind fun _ => Act.Moves.pure _
  | bounding sender first => exact hkept (Act.Moves.get.bind fun _ => Act.Moves.pure _)
  | collecting sender i last blocks =>
    refine hkept (Act.Moves.get.bind fun n => ?_)
    split
    · exact (Act.Moves.lift _).bind fun _ => Act.Moves.pure _
    · exact (Act.Moves.lift _).bind fun _ => (Node.chainKept_of_quiet (P := P)
        (Node.onServer_quiet (Server.send_fedBy sender _))).bind fun _ => Act.Moves.pure _
  | batch rest =>
    cases rest with
    | nil => exact hkept (Act.Moves.pure _)
    | cons b rest =>
      exact adds_addBlock (Or.inr ⟨rest, rfl⟩) (fun _ => rfl) (fun _ => id) hcall hreturns

/-- What a step of `createNewBlock` does to the chain. -/
theorem adds_production {p : Production} {fuel : ℕ} {key : PrivateKey} {tick : Tick}
    {o : Outcome Err Production} {n n' : Node E S} (hcall : p.step P fuel key tick n = (o, n'))
    (hreturns : o.Returns) : Node.Adds P (fun b => p = .signed b) n n' := by
  have hkept : ∀ {given : Block → Prop},
      Act.Moves Node.ChainKept (p.step P fuel key tick : Act (Node E S) Err Production) →
        Node.Adds P given n n' := by
    intro given hmoves
    exact .of_chainKept (hmoves.of_call hcall)
  cases p with
  | idle =>
    exact hkept (Act.Moves.get.bind fun _ => (Act.Moves.lift _).bind fun _ => Act.Moves.pure _)
  | headerRead h => exact hkept (Act.Moves.get.bind fun _ => Act.Moves.pure _)
  | pendingRead h txx =>
    exact hkept (Act.Moves.get.bind fun _ => (Act.Moves.lift _).bind fun _ => Act.Moves.pure _)
  | signed b => exact adds_addBlock rfl (fun _ => rfl) (fun _ => id) hcall hreturns
  | added b =>
    exact hkept (Act.Moves.bind (fun _ => ⟨rfl, rfl⟩) fun _ =>
      Act.Moves.bind (fun _ => ⟨rfl, rfl⟩) fun _ => Act.Moves.pure _)

/-- **A turn leaves the chain as it is, or gives it a block that is at hand.** -/
theorem Step.adds {s s' : Process E S} {t : Turn} {o : Outcome Err Unit}
    (hstep : Step P C s t o s') : Node.Adds P (s.AtHand t) s.node s'.node := by
  cases hstep with
  | submit _ => exact .of_chainKept ⟨rfl, rfl⟩
  | advance _ call _ => exact .of_chainKept ((chainKept_call _ _).of_call call)
  | produce held call returns =>
    refine (adds_production call returns).mono fun b hb => Or.inr ⟨_, rfl, hb, ?_⟩
    rw [held]
    rfl
  | receive _ call _ => exact .of_chainKept ((chainKept_start P _ _).of_call call)
  | handle call returns =>
    exact (adds_handler call returns).mono fun b hb => Or.inl ⟨_, rfl, hb⟩
  | @greet addr _ _ call _ =>
    have hquiet : Act.Moves (Node.Quiet P (fun _ => False))
        (Node.onServer (Server.sendGetStatus addr) : Act (Node E S) Err Unit) :=
      Node.onServer_quiet (Server.send_fedBy _ _)
    exact .of_chainKept ((Node.chainKept_of_quiet hquiet).of_call call)
  | askPeers call _ => exact .of_chainKept ((chainKept_sendGetPeers _).of_call call)
  | meet => exact .of_chainKept ⟨rfl, rfl⟩

end Process

end Blockz
