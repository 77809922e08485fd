import Blockz.Chain.Supply
import Blockz.Network.Node
import Mathlib.Logic.Relation

/-!
# A running node

What a node is driven by: the messages that the loop of `Start` hands to `ProcessMessage`, the
transactions that the JSON-RPC server submits, and the ticks of the validator loop. `Handled` is one
such call, however it ends, and a run is a history of them.

Pool and chain are touched in few places. `Handling` lists them: a transaction goes into the pool,
or blocks go to the chain and the pool stays, or the node's own block goes to the chain and the
pending transactions go away. Every invariant of a run is proved on these cases.
-/

namespace Blockz

open Effect

/-! ### The chain -/

namespace Blockchain

variable {E S : Type} {P : Primitives} [ConsensusEngine P E] [Storage P S]

/-- Some calls of `AddBlock`, each with a block of the given kind, lead from one chain to the other.
-/
def Fed (P : Primitives) [ConsensusEngine P E] [Storage P S] (given : Block → Prop) :
    Blockchain E S → Blockchain E S → Prop :=
  Relation.ReflTransGen fun bc bc' => ∃ b o, given b ∧ Called P bc b o bc'

variable {given : Block → Prop} {bc bc' : Blockchain E S}

theorem Fed.refl : bc.Fed P given bc := Relation.ReflTransGen.refl

theorem Fed.call {b : Block} {o : Outcome Err Unit} (hb : given b) (hcall : Called P bc b o bc') :
    bc.Fed P given bc' := .single ⟨b, o, hb, hcall⟩

instance : Std.Refl (Fed P given : Blockchain E S → Blockchain E S → Prop) where
  refl _ := .refl

instance : IsTrans (Blockchain E S) (Fed P given) where
  trans _ _ _ h₁ h₂ := Relation.ReflTransGen.trans h₁ h₂

/-- A predicate that every call with such a block keeps. -/
theorem Fed.invariant (I : Blockchain E S → Prop) (hfed : bc.Fed P given bc') (hstart : I bc)
    (hstep : ∀ {bc b o bc'}, given b → I bc → Called P bc b o bc' → I bc') : I bc' := by
  induction hfed with
  | refl => exact hstart
  | tail _ hcall ih =>
    obtain ⟨b, o, hb, hcall⟩ := hcall
    exact hstep hb ih hcall

end Blockchain

/-! ### The handlers of the server -/

namespace Server

variable {E S : Type} {P : Primitives} [ConsensusEngine P E] [Storage P S] {C : Codecs}
  {given : Block → Prop}

/-- Of the chain, the call has done no more than add such blocks. -/
def FedBy (P : Primitives) [ConsensusEngine P E] [Storage P S] (given : Block → Prop)
    (s s' : Server E S) : Prop :=
  s.chain.Fed P given s'.chain

instance : Std.Refl (FedBy P given : Server E S → Server E S → Prop) where
  refl _ := .refl

instance : IsTrans (Server E S) (FedBy P given) where
  trans _ _ _ h₁ h₂ := h₁.trans h₂

theorem send_fedBy (addr : NetAddr) (msg : Message) :
    Act.Moves (FedBy P given) (send addr msg : Act (Server E S) Err Unit) := by
  refine Act.Moves.get.bind fun s => ?_
  split
  · exact Act.Moves.lift _
  · exact (Act.Moves.lift _).bind fun _ _ => .refl

theorem sendGetBlocks_fedBy (sender : NetAddr) (msg : GetBlocksMessage) :
    Act.Moves (FedBy P given) (sendGetBlocks C sender msg : Act (Server E S) Err Unit) :=
  (Act.Moves.lift _).bind fun _ => send_fedBy _ _

theorem requestBlocksSync_fedBy (sender : NetAddr) :
    Act.Moves (FedBy P given) (requestBlocksSync C sender : Act (Server E S) Err Unit) :=
  Act.Moves.get.bind fun _ => sendGetBlocks_fedBy _ _

theorem processStatusMessage_fedBy (sender : NetAddr) (msg : StatusMessage) :
    Act.Moves (FedBy P given) (processStatusMessage C sender msg : Act (Server E S) Err Unit) := by
  refine Act.Moves.get.bind fun s => ?_
  split
  · exact sendGetBlocks_fedBy _ _
  · exact Act.Moves.pure _

theorem processGetStatusMessage_fedBy (sender : NetAddr) :
    Act.Moves (FedBy P given) (processGetStatusMessage C sender : Act (Server E S) Err Unit) :=
  Act.Moves.get.bind fun _ => (Act.Moves.lift _).bind fun _ => send_fedBy _ _

theorem processGetBlocks_fedBy (fuel : ℕ) (sender : NetAddr) (msg : GetBlocksMessage) :
    Act.Moves (FedBy P given)
      (processGetBlocks P C fuel sender msg : Act (Server E S) Err Unit) :=
  Act.Moves.get.bind fun _ => (Act.Moves.lift _).bind fun _ => (Act.Moves.lift _).bind fun _ =>
    send_fedBy _ _

theorem processBlocks_fedBy (fuel : ℕ) (msg : BlocksMessage) (hgiven : ∀ b ∈ msg.blocks, given b) :
    Act.Moves (FedBy P given) (processBlocks P fuel msg : Act (Server E S) Err Unit) := by
  have hloop : Act.Moves (Blockchain.Fed P given)
      (Act.forEach (Blockchain.addBlock P fuel) msg.blocks : Act (Blockchain E S) Err Unit) :=
    Act.Moves.forEach fun b hb bc => .call (hgiven b hb) ⟨fuel, rfl⟩
  exact fun s => hloop s.chain

end Server

/-! ### The handlers of the node -/

namespace Node

variable {E S : Type} {P : Primitives} [ConsensusEngine P E] [Storage P S] {C : Codecs}
  {given : Block → Prop}

/-- Pool and key are the same, and of the chain the call has done no more than add such blocks. -/
structure Quiet (P : Primitives) [ConsensusEngine P E] [Storage P S] (given : Block → Prop)
    (n n' : Node E S) : Prop where
  memPool : n'.memPool = n.memPool
  privateKey : n'.privateKey = n.privateKey
  chain : n.chain.Fed P given n'.chain

instance : Std.Refl (Quiet P given : Node E S → Node E S → Prop) where
  refl _ := ⟨rfl, rfl, .refl⟩

instance : IsTrans (Node E S) (Quiet P given) where
  trans _ _ _ h₁ h₂ :=
    ⟨h₂.memPool.trans h₁.memPool, h₂.privateKey.trans h₁.privateKey, h₁.chain.trans h₂.chain⟩

theorem onServer_quiet {α : Type} {m : Act (Server E S) Err α}
    (hm : Act.Moves (Server.FedBy P given) m) : Act.Moves (Quiet P given) (onServer m) :=
  fun n => ⟨rfl, rfl, hm n.toServer⟩

theorem addBlock_quiet (fuel : ℕ) {b : Block} (hb : given b) :
    Act.Moves (Quiet P given)
      (onChain (Blockchain.addBlock P fuel b) : Act (Node E S) Err Unit) :=
  fun _ => ⟨rfl, rfl, .call hb ⟨fuel, rfl⟩⟩

theorem launch_quiet (m : Broadcast) :
    Act.Moves (Quiet P given) (launch m : Act (Node E S) Err Unit) :=
  fun _ => ⟨rfl, rfl, .refl⟩

theorem processBlock_quiet (fuel : ℕ) (sender : NetAddr) {b : Block} (hb : given b) :
    Act.Moves (Quiet P given) (processBlock P C fuel sender b : Act (Node E S) Err Unit) := by
  refine (addBlock_quiet fuel hb).attempt.bind fun added => ?_
  cases added with
  | ok _ => exact launch_quiet _
  | error e =>
    show Act.Moves _ (if _ then _ else if _ then _ else _)
    split
    · exact onServer_quiet (Server.requestBlocksSync_fedBy sender)
    · split
      · exact Act.Moves.pure _
      · exact Act.Moves.lift _

theorem handleGetPeers_quiet (moment : Moment) (sender : NetAddr) :
    Act.Moves (Quiet P given) (handleGetPeers C moment sender : Act (Node E S) Err Unit) :=
  Act.Moves.get.bind fun _ => (Act.Moves.lift _).bind fun _ => (Act.Moves.lift _).bind fun _ =>
    (Act.Moves.lift _).bind fun _ _ => ⟨rfl, rfl, .refl⟩

theorem handleSharePeers_quiet (peers : List NetAddr) :
    Act.Moves (Quiet P given) (handleSharePeers peers : Act (Node E S) Err Unit) := by
  refine Act.Moves.forEach fun addr _ => Act.Moves.get.bind fun n => ?_
  split
  · exact Act.Moves.pure _
  · refine (Act.Moves.lift _).bind fun tr => ?_
    show Act.Moves _ (if addr ≠ tr.1 then _ else _)
    split
    · exact fun _ => ⟨rfl, rfl, .refl⟩
    · exact Act.Moves.pure _

/-! ### One call -/

/-- What a node is driven by. -/
inductive Input
  -- a message that was decoded, and what the outside contributes to its handling
  | message (moment : Moment) (msg : DecodedMessage)
  -- `eth_sendRawTransaction`
  | submitted (tx : Transaction) (now : Int64)
  -- of the validator loop
  | tick (tick : Tick)

/-- The transaction that an input submits, and when. -/
def Input.transaction : Input → Option (Transaction × Int64)
  | .message moment ⟨_, .transaction tx⟩ => some (tx, moment.now)
  | .submitted tx now => some (tx, now)
  | _ => none

/-- The blocks that an input delivers. -/
def Input.blocks : Input → List Block
  | .message _ ⟨_, .block b⟩ => [b]
  | .message _ ⟨_, .blocks batch⟩ => batch.blocks
  | _ => []

variable [SealingEngine P E]

def handle (P : Primitives) [ConsensusEngine P E] [Storage P S] [SealingEngine P E] (C : Codecs)
    (fuel : ℕ) : Input → Act (Node E S) Err Unit
  | .message moment msg => dispatch P C fuel moment msg
  | .submitted tx now => processTransaction P tx now
  | .tick tick => validatorTick P fuel tick

/-- One call, however it ends. -/
def Handled (P : Primitives) [ConsensusEngine P E] [Storage P S] [SealingEngine P E] (C : Codecs)
    (n : Node E S) (i : Input) (o : Outcome Err Unit) (n' : Node E S) : Prop :=
  ∃ fuel, handle P C fuel i n = (o, n')

/-- What a call does to pool and chain. -/
inductive Handling (P : Primitives) [ConsensusEngine P E] [Storage P S] [SealingEngine P E]
    (n : Node E S) : Input → Node E S → Prop
  | transaction {i : Input} {tx : Transaction} {now : Int64} {o : Outcome Err Unit}
      {n' : Node E S} (submits : i.transaction = some (tx, now))
      (admission : Admission P tx now n o n') : Handling P n i n'
  | blocks {i : Input} {n' : Node E S} (quiet : Quiet P (· ∈ i.blocks) n n') : Handling P n i n'
  -- the node's own block: the chain has refused it, or taken it
  | refused {tick : Tick} {key : PrivateKey} {b : Block} {o : Outcome Err Unit} {n' : Node E S}
      (held : n.privateKey = some key)
      (assembled : n.chain.assembleBlock P key n.memPool.pending.txx tick = .ok b)
      (call : Blockchain.Called P n.chain b o n'.chain) (stop : o ≠ .ok ())
      (memPool : n'.memPool = n.memPool) (privateKey : n'.privateKey = n.privateKey) :
      Handling P n (.tick tick) n'
  | proposed {tick : Tick} {key : PrivateKey} {b : Block} {n' : Node E S}
      (held : n.privateKey = some key)
      (assembled : n.chain.assembleBlock P key n.memPool.pending.txx tick = .ok b)
      (added : Blockchain.Called P n.chain b (.ok ()) n'.chain)
      (cleared : n'.memPool = n.memPool.clearPending)
      (privateKey : n'.privateKey = n.privateKey) : Handling P n (.tick tick) n'

theorem dispatch_step {n : Node E S} (hpool : n.memPool.Sound P) (fuel : ℕ) (moment : Moment)
    (msg : DecodedMessage) :
    Handling P n (.message moment msg) (dispatch P C fuel moment msg n).2 := by
  obtain ⟨sender, data⟩ := msg
  cases data with
  | transaction tx => exact .transaction rfl (processTransaction_step hpool tx moment.now)
  | block b => exact .blocks (processBlock_quiet fuel sender List.mem_cons_self n)
  | getBlocks req =>
    exact .blocks (onServer_quiet (Server.processGetBlocks_fedBy fuel sender req) n)
  | blocks batch =>
    exact .blocks (onServer_quiet (Server.processBlocks_fedBy fuel batch fun _ => id) n)
  | status st => exact .blocks (onServer_quiet (Server.processStatusMessage_fedBy sender st) n)
  | getStatus => exact .blocks (onServer_quiet (Server.processGetStatusMessage_fedBy sender) n)
  | getPeers => exact .blocks (handleGetPeers_quiet moment sender n)
  | sharePeers peers => exact .blocks (handleSharePeers_quiet peers n)

/-- `createNewBlock` after the block has been made. -/
theorem createNewBlock_of_assembled {n : Node E S} {key : PrivateKey} {tick : Tick} {b : Block}
    (fuel : ℕ) (hb : n.chain.assembleBlock P key n.memPool.pending.txx tick = .ok b) :
    createNewBlock P fuel key tick n =
      (onChain (Blockchain.addBlock P fuel b) >>= fun _ =>
        Act.modify (fun n => { n with memPool := n.memPool.clearPending }) >>= fun _ =>
          launch (.block b)) n := by
  unfold createNewBlock
  rw [Act.get_bind_apply, hb, Act.bind_apply_ok (Act.lift_apply _ _)]

theorem tick_step (fuel : ℕ) (tick : Tick) (n : Node E S) :
    Handling P n (.tick tick) (validatorTick P fuel tick n).2 := by
  unfold validatorTick
  rw [Act.get_bind_apply]
  cases hkey : n.privateKey with
  | none => exact .blocks ⟨rfl, rfl, .refl⟩
  | some key =>
    show Handling P n _ (createNewBlock P fuel key tick n).2
    by_cases hmade : ∃ b, n.chain.assembleBlock P key n.memPool.pending.txx tick = .ok b
    case neg =>
      -- no block: the call ends before it has written anything
      have hstop : ∀ b, n.chain.assembleBlock P key n.memPool.pending.txx tick ≠ .ok b :=
        fun b hb => hmade ⟨b, hb⟩
      have hsame : (createNewBlock P fuel key tick n).2 = n :=
        Act.bind_snd_stop (Act.lift_apply _ n) hstop _
      rw [hsame]
      exact .blocks ⟨rfl, rfl, .refl⟩
    case pos =>
      obtain ⟨b, hb⟩ := hmade
      rw [createNewBlock_of_assembled fuel hb]
      rcases hadd : Blockchain.addBlock P fuel b n.chain with ⟨o, bc⟩
      have hon := onChain_apply hadd
      by_cases hok : o = .ok ()
      · subst hok
        rw [Act.bind_apply_ok hon]
        exact .proposed hkey hb ⟨fuel, hadd⟩ rfl rfl
      · rw [Act.bind_apply_stop hon fun _ => hok]
        exact .refused hkey hb ⟨fuel, hadd⟩ hok rfl rfl

/-- **Every call is one of the listed steps.** -/
theorem Handling.of_handled {n n' : Node E S} {i : Input} {o : Outcome Err Unit}
    (hpool : n.memPool.Sound P) (hcall : Handled P C n i o n') : Handling P n i n' := by
  obtain ⟨fuel, hcall⟩ := hcall
  have hstep : Handling P n i (handle P C fuel i n).2 := by
    cases i with
    | message moment msg => exact dispatch_step hpool fuel moment msg
    | submitted tx now => exact .transaction rfl (processTransaction_step hpool tx now)
    | tick tick => exact tick_step fuel tick n
  rwa [hcall] at hstep

/-! ### The pool along a run -/

theorem Handling.sound {n n' : Node E S} {i : Input} (hstep : Handling P n i n')
    (hpool : n.memPool.Sound P) : n'.memPool.Sound P := by
  cases hstep with
  | transaction _ admission => exact admission.sound hpool
  | blocks quiet =>
    rw [quiet.memPool]
    exact hpool
  | refused _ _ _ _ memPool _ =>
    rw [memPool]
    exact hpool
  | proposed _ _ _ cleared _ =>
    rw [cleared]
    exact hpool.clearPending

/-- A predicate that each of the listed steps keeps holds after every run. The run may be one in
which every call meets a condition. -/
theorem invariant_of_run {I : Node E S → Prop}
    {step : Node E S → Input → Outcome Err Unit → Node E S → Prop} {n₀ n : Node E S}
    {es : List (Input × Outcome Err Unit)} (hrun : History step n₀ es n)
    (hcalls : ∀ {n i o n'}, step n i o n' → Handled P C n i o n') (hpool : n₀.memPool.Sound P)
    (hstart : I n₀) (hstep : ∀ {n i o n'}, I n → step n i o n' → Handling P n i n' → I n') :
    n.memPool.Sound P ∧ I n := by
  refine hrun.invariant (fun n => n.memPool.Sound P ∧ I n) ⟨hpool, hstart⟩ ?_
  rintro n i o n' ⟨hpool, hn⟩ hcall
  have hhandling := Handling.of_handled hpool (hcalls hcall)
  exact ⟨hhandling.sound hpool, hstep hn hcall hhandling⟩

end Node

end Blockz
