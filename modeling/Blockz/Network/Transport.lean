import Blockz.Errors
import Blockz.Framework.Effect
import Blockz.Framework.Gob
import Blockz.Framework.History

/-!
# Messages over TCP

`network/rpc.go` and `network/tcp_transport.go`, as far as one connection is concerned. A node
writes messages to a connection with `SendMessage` and `Broadcast`; the goroutine `readLoop` at the
other end decodes them one after the other, encodes each one again and hands it on.

`Message.Bytes` makes a new encoder for every message, so every message on the wire comes with the
descriptor of its type. `readLoop` has one decoder for the whole connection, and that decoder knows
the type after the first message. The second descriptor is an error, on which the loop returns and
closes the connection.

The stream is modelled by what gob writes, descriptors and values, and not by bytes. `id` is the
number of the type `Message` in the process that writes, which is one number for the whole
connection (`Gob.idOf_extended`); `self` is that number in the process that reads.
-/

namespace Blockz

open Effect

/-- `network.NetAddr`. -/
abbrev NetAddr := String

/-- `network.Message`; the first field is a `MessageType`. -/
structure Message where
  header : UInt8
  data : List UInt8
  deriving DecidableEq, Repr

/-- `Message.Bytes`. -/
def Message.bytes (id : ℕ) (msg : Message) : List (Gob.Frame Message) := Gob.encode id msg

/-- `network.RPC`; the field `From` is called `sender`. -/
structure RPC where
  sender : NetAddr
  payload : List (Gob.Frame Message)
  deriving DecidableEq, Repr

/-- The message that `DefaultRPCDecodeFunc` reads from the payload, with a decoder of its own. -/
def RPC.message (rpc : RPC) : Option Message := Gob.decode [] rpc.payload

/-! ### Writing -/

/-- `network.TCPTransport`: for every connected peer, what has been written to its connection. -/
structure TCPTransport where
  peers : NetAddr → Option (List (Gob.Frame Message))

namespace TCPTransport

/-- `TCPTransport.SendMessage`, on a connection that takes what is written. -/
def sendMessage (dst : NetAddr) (payload : List (Gob.Frame Message)) :
    Act TCPTransport Err Unit := fun t =>
  match t.peers dst with
  | none => (.err (.peerNotFound dst), t)
  | some stream => (.ok (), ⟨Function.update t.peers dst (some (stream ++ payload))⟩)

/-- `TCPTransport.Broadcast`. -/
def broadcast (payload : List (Gob.Frame Message)) : Act TCPTransport Err Unit :=
  Act.modify fun t => ⟨fun addr => (t.peers addr).map (· ++ payload)⟩

end TCPTransport

/-- A write of a message. -/
inductive Sending
  | sendMessage (dst : NetAddr) (msg : Message)
  | broadcast (msg : Message)

namespace Sending

def run (id : ℕ) : Sending → Act TCPTransport Err Unit
  | sendMessage dst msg => TCPTransport.sendMessage dst (msg.bytes id)
  | broadcast msg => TCPTransport.broadcast (msg.bytes id)

/-- The message, if it goes to the connection of `peer`. -/
def reaching (peer : NetAddr) : Sending → Option Message
  | sendMessage dst msg => if dst = peer then some msg else none
  | broadcast msg => some msg

end Sending

/-- One write, its answer, and the transport it leaves. -/
def Wrote (id : ℕ) (t : TCPTransport) (w : Sending) (o : Outcome Err Unit) (t' : TCPTransport) :
    Prop :=
  w.run id t = (o, t')

/-- The messages of a history that went to the connection of `peer`, oldest first. -/
def reaching (peer : NetAddr) (ws : List (Sending × Outcome Err Unit)) : List Message :=
  ws.filterMap fun w => w.1.reaching peer

theorem reaching_concat (peer : NetAddr) (ws : List (Sending × Outcome Err Unit)) (w : Sending)
    (o : Outcome Err Unit) :
    reaching peer (ws ++ [(w, o)]) = reaching peer ws ++ (w.reaching peer).toList := by
  unfold reaching
  rw [List.filterMap_append]
  cases hw : w.reaching peer <;> simp [hw]

theorem Wrote.stream_eq {id : ℕ} {t t' : TCPTransport} {w : Sending} {o : Outcome Err Unit}
    (h : Wrote id t w o t') {peer : NetAddr} {stream : List (Gob.Frame Message)}
    (hstream : t.peers peer = some stream) :
    t'.peers peer = some (stream ++ (w.reaching peer).toList.flatMap (Message.bytes id)) := by
  obtain rfl : (w.run id t).2 = t' := by rw [show w.run id t = (o, t') from h]
  cases w with
  | broadcast msg =>
    change (t.peers peer).map (· ++ msg.bytes id) = _
    rw [hstream]
    simp [Sending.reaching]
  | sendMessage dst msg =>
    change (TCPTransport.sendMessage dst (msg.bytes id) t).2.peers peer = _
    unfold TCPTransport.sendMessage
    by_cases hdst : dst = peer
    · subst hdst
      simp [hstream, Sending.reaching]
    · -- another connection, or none: this one is left alone
      have hnone : (Sending.sendMessage dst msg).reaching peer = none := if_neg hdst
      rw [hnone, Option.toList_none, List.flatMap_nil, List.append_nil]
      cases t.peers dst with
      | none => exact hstream
      | some other => exact (Function.update_of_ne (Ne.symm hdst) _ _).trans hstream

/-- The connection carries the messages that were written to it, one after the other. -/
theorem stream_of_run {id : ℕ} {t t' : TCPTransport} {ws : List (Sending × Outcome Err Unit)}
    (hrun : History (Wrote id) t ws t') {peer : NetAddr} (hopen : t.peers peer = some []) :
    t'.peers peer = some ((reaching peer ws).flatMap (Message.bytes id)) := by
  refine hrun.recorded
    (fun ws t' => t'.peers peer = some ((reaching peer ws).flatMap (Message.bytes id))) hopen ?_
  intro ws t w o t' _ ht hw
  rw [hw.stream_eq ht, reaching_concat, List.flatMap_append]

/-! ### Reading -/

/-- Whether the loop waits for more, or has returned and closed the connection. -/
inductive Connection
  | waiting
  | closed
  deriving DecidableEq, Repr

/-- `TCPTransport.readLoop`, with the types that its decoder knows: the RPCs that it emits on a
stream, and what becomes of the connection. -/
def readLoop (peer : NetAddr) (self : ℕ) (known : List ℕ) :
    List (Gob.Frame Message) → List RPC × Connection
  | [] => ([], .waiting)
  | frame :: rest =>
    match Gob.receive known frame with
    -- `Decode` reads on behind a descriptor
    | .more known' => readLoop peer self known' rest
    | .value msg =>
      (⟨peer, msg.bytes self⟩ :: (readLoop peer self known rest).1,
        (readLoop peer self known rest).2)
    | .failed => ([], .closed)

/-- The loop on the first message. -/
theorem readLoop_first (peer : NetAddr) (self id : ℕ) (msg : Message)
    (rest : List (Gob.Frame Message)) :
    readLoop peer self [] (msg.bytes id ++ rest) =
      (⟨peer, msg.bytes self⟩ :: (readLoop peer self [id] rest).1,
        (readLoop peer self [id] rest).2) := by
  simp [readLoop, Message.bytes, Gob.encode, Gob.receive]

/-- The loop on any later message: its descriptor is known. -/
theorem readLoop_later (peer : NetAddr) (self id : ℕ) (msg : Message)
    (rest : List (Gob.Frame Message)) :
    readLoop peer self [id] (msg.bytes id ++ rest) = ([], .closed) := by
  simp [readLoop, Message.bytes, Gob.encode, Gob.receive]

/-- What the loop makes of a stream of messages. -/
theorem readLoop_messages (peer : NetAddr) (self id : ℕ) (msgs : List Message) :
    readLoop peer self [] (msgs.flatMap (Message.bytes id)) =
      match msgs with
      | [] => ([], .waiting)
      | [msg] => ([⟨peer, msg.bytes self⟩], .waiting)
      | msg :: _ :: _ => ([⟨peer, msg.bytes self⟩], .closed) := by
  match msgs with
  | [] => rfl
  | [msg] =>
    rw [List.flatMap_cons, readLoop_first]
    rfl
  | first :: second :: rest =>
    rw [List.flatMap_cons, readLoop_first, List.flatMap_cons, readLoop_later]

/-- **When a stream of messages is delivered.** The connection is fresh, and any messages have been
written to it. The loop at the other end emits one RPC for each of them, in order and decoding to
it, and keeps the connection, exactly when there was at most one. -/
theorem delivered_iff_of_run {id self : ℕ} {t t' : TCPTransport}
    {ws : List (Sending × Outcome Err Unit)} (hrun : History (Wrote id) t ws t')
    {peer writer : NetAddr} (hopen : t.peers peer = some []) :
    ∃ stream, t'.peers peer = some stream ∧
      ((∃ rpcs, readLoop writer self [] stream = (rpcs, .waiting) ∧
          rpcs.map RPC.message = (reaching peer ws).map some) ↔
        (reaching peer ws).length ≤ 1) := by
  refine ⟨_, stream_of_run hrun hopen, ?_⟩
  rw [readLoop_messages]
  match reaching peer ws with
  | [] => simp
  | [msg] => simp [RPC.message, Message.bytes, Gob.decode_encode]
  | first :: second :: rest => simp

/-- A transport with one connection. -/
def oneConnection : TCPTransport := ⟨fun addr => if addr = "B" then some [] else none⟩

def ping : Message := ⟨5, []⟩

def oneSent : TCPTransport := (Sending.run 65 (.sendMessage "B" ping) oneConnection).2

/-- One message is delivered. -/
theorem delivered_iff_of_run_oneSent :
    ∃ stream, oneSent.peers "B" = some stream ∧
      ((∃ rpcs, readLoop "A" 65 [] stream = (rpcs, .waiting) ∧
          rpcs.map RPC.message = [some ping]) ↔ [ping].length ≤ 1) := by
  have hrun : History (Wrote 65) oneConnection [(.sendMessage "B" ping, .ok ())] oneSent :=
    .call .start rfl
  exact delivered_iff_of_run hrun rfl

/-- **The second message closes the connection.** Both were written without an error. -/
theorem readLoop_closes_after_first :
    (Sending.run 65 (.broadcast ping) oneSent).1 = .ok () ∧
      (Sending.run 65 (.broadcast ping) oneSent).2.peers "B" =
        some (ping.bytes 65 ++ ping.bytes 65) ∧
      readLoop "A" 65 [] (ping.bytes 65 ++ ping.bytes 65) =
        ([⟨"A", ping.bytes 65⟩], .closed) := by
  decide +kernel

end Blockz
