import Blockz.Core.Blockchain
import Blockz.Network.Transport

/-!
# The server and its sync handlers

`network/rpc.go` and the part of `network/server.go` by which a node catches up with another one. A
node that learns of a greater height, from a `StatusMessage` or from a block that is too high, asks
for the blocks it lacks (`processStatusMessage`, `requestBlocksSync`); the other one answers with
them (`processGetBlocks`), and the first one adds them (`processBlocks`).

A handler returns an error or none, and leaves what it sends with the transport of the peer. The
server therefore keeps a record of what it has sent. Each message is a gob encoding, wrapped in a
`Message` that is again encoded by gob: `Codecs` are the inner encodings, one for each type, and the
outer one is that of `Message.bytes`.
-/

namespace Blockz

open Effect

/-! ### Messages -/

/-- `network.MessageType`, by the constants that the source names. -/
inductive MessageType
  | tx | block | getBlocks | blocks | status | getStatus | getPeers | sharePeers
  deriving DecidableEq, Repr

namespace MessageType

/-- The byte on the wire. -/
def code : MessageType → UInt8
  | tx => 0x01
  | block => 0x02
  | getBlocks => 0x03
  | blocks => 0x06
  | status => 0x04
  | getStatus => 0x05
  | getPeers => 0x07
  | sharePeers => 0x08

/-- The `switch` of `DefaultRPCDecodeFunc`; `none` is its default. -/
def ofCode (c : UInt8) : Option MessageType :=
  [tx, block, getBlocks, blocks, status, getStatus, getPeers, sharePeers].find? (·.code == c)

@[simp] theorem ofCode_code (t : MessageType) : ofCode t.code = some t := by
  cases t <;> rfl

end MessageType

/-- `NewMessage`. -/
def newMessage (t : MessageType) (data : List UInt8) : Message := ⟨t.code, data⟩

/-- `network.StatusMessage`. -/
structure StatusMessage where
  id : String
  version : UInt32
  height : UInt32
  deriving DecidableEq, Repr

/-- `network.GetBlocksMessage`; the fields `From` and `To` are called `first` and `last`. -/
structure GetBlocksMessage where
  first : UInt32
  -- 0 means up to the latest
  last : UInt32
  deriving DecidableEq, Repr

/-- `network.BlocksMessage`. -/
structure BlocksMessage where
  blocks : List Block
  deriving DecidableEq, Repr

/-- What gob carries of the blocks. -/
def BlocksMessage.exported (msg : BlocksMessage) : BlocksMessage :=
  ⟨msg.blocks.map Block.exported⟩

/-- The field `Data` of a `DecodedMessage`. -/
inductive Payload
  | transaction (tx : Transaction)
  | block (b : Block)
  | getBlocks (msg : GetBlocksMessage)
  | blocks (msg : BlocksMessage)
  | status (msg : StatusMessage)
  | getStatus
  | getPeers
  | sharePeers (peers : List NetAddr)

/-- `network.DecodedMessage`; the field `From` is called `sender`. -/
structure DecodedMessage where
  sender : NetAddr
  data : Payload

/-- The encodings of what a `Message` holds. -/
structure Codecs where
  transaction : GobCodec Transaction
  block : GobCodec Block
  getBlocks : GobCodec GetBlocksMessage
  blocks : GobCodec BlocksMessage
  status : GobCodec StatusMessage
  sharePeers : GobCodec (List NetAddr)

/-- The cases of `DefaultRPCDecodeFunc`. -/
def Codecs.decode (C : Codecs) (t : MessageType) (data : List UInt8) : Outcome Err Payload :=
  match t with
  | .tx => C.transaction.decode data >>= fun tx => .ok (.transaction tx)
  | .block => C.block.decode data >>= fun b => .ok (.block b)
  | .getBlocks => C.getBlocks.decode data >>= fun msg => .ok (.getBlocks msg)
  | .blocks => C.blocks.decode data >>= fun msg => .ok (.blocks msg)
  | .status => C.status.decode data >>= fun msg => .ok (.status msg)
  | .getStatus => .ok .getStatus
  | .getPeers => .ok .getPeers
  | .sharePeers => C.sharePeers.decode data >>= fun peers => .ok (.sharePeers peers)

/-- The `switch` of `DefaultRPCDecodeFunc`. -/
def decodeContent (C : Codecs) (sender : NetAddr) (msg : Message) : Outcome Err DecodedMessage :=
  match MessageType.ofCode msg.header with
  | none => .err (.invalidMessageType msg.header)
  | some t => C.decode t msg.data >>= fun data => .ok ⟨sender, data⟩

/-- `DefaultRPCDecodeFunc`. -/
def defaultRPCDecodeFunc (C : Codecs) (rpc : RPC) : Outcome Err DecodedMessage :=
  match rpc.message with
  | none => .err (.messageUndecodable rpc.sender)
  | some msg => decodeContent C rpc.sender msg

/-- What is decoded from a message that a node has made. -/
theorem defaultRPCDecodeFunc_newMessage (C : Codecs) (sender : NetAddr) (id : ℕ) (t : MessageType)
    (data : List UInt8) :
    defaultRPCDecodeFunc C ⟨sender, (newMessage t data).bytes id⟩ =
      C.decode t data >>= fun payload => .ok ⟨sender, payload⟩ := by
  have hmessage : RPC.message ⟨sender, (newMessage t data).bytes id⟩ = some (newMessage t data) :=
    Gob.decode_encode _ _
  unfold defaultRPCDecodeFunc
  rw [hmessage]
  show (match MessageType.ofCode t.code with | none => _ | some t => _) = _
  rw [MessageType.ofCode_code]
  rfl

/-! ### The server -/

/-- `network.Transport`, by what `SendMessage` answers. A message that it accepts is on its way. -/
structure Transport where
  sendMessage : NetAddr → List (Gob.Frame Message) → Outcome Err Unit

/-- A message that was handed to a transport. -/
structure Envelope where
  dst : NetAddr
  payload : List (Gob.Frame Message)

/-- `network.Server`, as far as the sync handlers use it. -/
structure Server (E S : Type) where
  id : String
  -- the number of the type `Message` in this process
  gobId : ℕ
  chain : Blockchain E S
  peers : NetAddr → Option Transport
  -- oldest first
  sent : List Envelope

namespace Server

variable {E S : Type} (P : Primitives) (C : Codecs)

/-- `strings.Replace(addr, "localhost", "127.0.0.1", 1)`, if there is something to replace. -/
def localAlias (addr : NetAddr) : Option NetAddr :=
  match addr.splitOn "localhost" with
  | before :: next :: rest => some (before ++ "127.0.0.1" ++ "localhost".intercalate (next :: rest))
  | _ => none

/-- The lookups of `Server.send`. -/
def findPeer (s : Server E S) (addr : NetAddr) : Option Transport :=
  match s.peers addr with
  | some tr => some tr
  | none => (localAlias addr).bind s.peers

/-- `Server.send`. -/
def send (addr : NetAddr) (msg : Message) : Act (Server E S) Err Unit := do
  let s ← Act.get
  match s.findPeer addr with
  | none => Act.lift (.err (.peerNotFound addr))
  | some tr => do
    -- the address is the one that was asked for, also when the peer was found under the other
    Act.lift (tr.sendMessage addr (msg.bytes s.gobId))
    Act.modify fun s => { s with sent := s.sent ++ [⟨addr, msg.bytes s.gobId⟩] }

/-- The status of a node, as `processGetStatusMessage` builds it. -/
def status (s : Server E S) : StatusMessage := ⟨s.id, 1, s.chain.height⟩

/-- `Server.processGetStatusMessage`. -/
def processGetStatusMessage (sender : NetAddr) : Act (Server E S) Err Unit := do
  let s ← Act.get
  let data ← Act.lift (C.status.encode s.status)
  send sender (newMessage .status data)

/-- The two handlers that ask for blocks do so in the same way. -/
def sendGetBlocks (sender : NetAddr) (msg : GetBlocksMessage) : Act (Server E S) Err Unit := do
  let data ← Act.lift (C.getBlocks.encode msg)
  send sender (newMessage .getBlocks data)

/-- `Server.requestBlocksSync`. -/
def requestBlocksSync (sender : NetAddr) : Act (Server E S) Err Unit := do
  let s ← Act.get
  sendGetBlocks C sender ⟨s.chain.height + 1, 0⟩

/-- `Server.processStatusMessage`. -/
def processStatusMessage (sender : NetAddr) (msg : StatusMessage) : Act (Server E S) Err Unit := do
  let s ← Act.get
  if s.chain.height < msg.height then
    sendGetBlocks C sender ⟨s.chain.height + 1, msg.height⟩
  else pure ()

section Blocks

variable [Storage P S]

/-- The loop of `processGetBlocks`, for at most `fuel` visits of its head. The counter is a
`uint32`: behind `2 ^ 32 - 1` comes 0. -/
def collectBlocks (bc : Blockchain E S) (last : UInt32) :
    ℕ → UInt32 → List Block → Outcome Err (List Block)
  | 0, _, _ => .outOfFuel
  | fuel + 1, i, blocks =>
    if i ≤ last then do
      let block ← bc.getBlock P i
      collectBlocks bc last fuel (i + 1) (blocks ++ [block])
    else .ok blocks

/-- The upper bound of the loop. -/
def lastRequested (s : Server E S) (msg : GetBlocksMessage) : UInt32 :=
  if msg.last = 0 ∨ s.chain.height < msg.last then s.chain.height else msg.last

/-- `Server.processGetBlocks`. -/
def processGetBlocks (fuel : ℕ) (sender : NetAddr) (msg : GetBlocksMessage) :
    Act (Server E S) Err Unit := do
  let s ← Act.get
  let blocks ← Act.lift (collectBlocks P s.chain (s.lastRequested msg) fuel msg.first [])
  let data ← Act.lift (C.blocks.encode ⟨blocks⟩)
  send sender (newMessage .blocks data)

/-- `Server.processBlocks`; the sender is not used. -/
def processBlocks [ConsensusEngine P E] (fuel : ℕ) (msg : BlocksMessage) :
    Act (Server E S) Err Unit :=
  Act.on chain (fun bc s => { s with chain := bc })
    (Act.forEach (Blockchain.addBlock P fuel) msg.blocks)

end Blocks

/-! ### Sending -/

variable {P C}

/-- The server knows a transport for the address, and that transport takes what it is given. -/
def Reaches (s : Server E S) (addr : NetAddr) : Prop :=
  ∃ tr, s.findPeer addr = some tr ∧ ∀ payload, tr.sendMessage addr payload = .ok ()

/-- The server after it has sent a message. -/
def withSent (s : Server E S) (addr : NetAddr) (msg : Message) : Server E S :=
  { s with sent := s.sent ++ [⟨addr, msg.bytes s.gobId⟩] }

theorem send_of_reaches {s : Server E S} {addr : NetAddr} (hreach : s.Reaches addr)
    (msg : Message) : send addr msg s = (.ok (), s.withSent addr msg) := by
  obtain ⟨tr, hfind, haccept⟩ := hreach
  unfold send
  rw [Act.get_bind_apply]
  simp only [hfind]
  rw [haccept, Act.bind_apply_ok (Act.lift_apply _ _)]
  rfl

theorem sendGetBlocks_of_reaches {s : Server E S} {addr : NetAddr} (hreach : s.Reaches addr)
    {msg : GetBlocksMessage} {data : List UInt8} (hencode : C.getBlocks.encode msg = .ok data) :
    sendGetBlocks C addr msg s = (.ok (), s.withSent addr (newMessage .getBlocks data)) := by
  unfold sendGetBlocks
  rw [hencode, Act.bind_apply_ok (Act.lift_apply _ _)]
  exact send_of_reaches hreach _

/-! ### Collecting blocks -/

section Collect

variable [Storage P S] {bc : Blockchain E S} {last : UInt32}

theorem le_of_greatest (hmax : last.toNat = 2 ^ 32 - 1) (i : UInt32) : i ≤ last := by
  have hlt := i.toNat_lt
  rw [UInt32.le_iff_toNat_le]
  omega

/-- **The loop up to the greatest `uint32` never returns a list.** Every value of the counter is
within the bound. -/
theorem collectBlocks_max (hmax : last.toNat = 2 ^ 32 - 1) :
    ∀ fuel i acc blocks, collectBlocks P bc last fuel i acc ≠ .ok blocks := by
  intro fuel
  induction fuel with
  | zero => exact fun i acc blocks h => nomatch h
  | succ fuel ih =>
    intro i acc blocks h
    rw [collectBlocks, if_pos (le_of_greatest hmax i)] at h
    obtain ⟨block, -, hrest⟩ := Outcome.bind_eq_ok.mp h
    exact ih _ _ _ hrest

/-- On a store with a block at every height it does not return at all. -/
theorem collectBlocks_full (hmax : last.toNat = 2 ^ 32 - 1)
    (hfull : ∀ i, ∃ b, bc.getBlock P i = .ok b) :
    ∀ fuel i acc, collectBlocks P bc last fuel i acc = .outOfFuel := by
  intro fuel
  induction fuel with
  | zero => exact fun _ _ => rfl
  | succ fuel ih =>
    intro i acc
    obtain ⟨b, hget⟩ := hfull i
    rw [collectBlocks, if_pos (le_of_greatest hmax i), hget, Outcome.bind_ok]
    exact ih _ _

end Collect

end Server

end Blockz
