import Blockz.Network.Cluster
import Blockz.Network.Mail
import Mathlib.Data.Finmap

/-!
# Servers on local transports

`network/local_transport.go`: a transport has a channel with room for 1024 messages, and
`SendMessage` puts a message into the channel of the peer. It waits as long as there is no room.
Between the channel and the loop of `Start` there is the goroutine of `initTransports`, and the
goroutines of `broadcastTx` and `broadcastBlock` go through the peers one by one.

* `LocalTransport.sendMessage` — the answer is `outOfFuel` while the call waits.
* `LocalNet` — servers with all these goroutines, and `LocalNet.Step` — what can happen next.
* `LocalNet.Step.inFlight` — one event keeps the order of the messages that are on the way to a
  server, and loses none.
-/

namespace Blockz

open Effect

/-! ### Transports -/

/-- `network.LocalTransport`. The transports have names, and a peer is the name of a transport. -/
structure LocalTransport (κ : Type) where
  addr : NetAddr
  -- oldest first
  consumeCh : List RPC
  peers : Finmap fun _ : NetAddr => κ

namespace LocalTransport

variable {κ : Type}

/-- The size of the buffer of `consumeCh`. -/
def bufferSize : ℕ := 1024

/-- `NewLocalTransport`. -/
def newLocalTransport (addr : NetAddr) : LocalTransport κ where
  addr := addr
  consumeCh := []
  peers := ∅

/-- The error of `SendMessage`. -/
def unknownPeer (t : LocalTransport κ) (dst : NetAddr) : Err :=
  .library (t.addr ++ ": could not send message to unknown peer " ++ dst)

/-- The channel has got a message. -/
def push (t : LocalTransport κ) (rpc : RPC) : LocalTransport κ :=
  { t with consumeCh := t.consumeCh ++ [rpc] }

/-- The transport as the server sees it. While a call waits, the server waits as well. -/
def toTransport (t : LocalTransport κ) : Transport where
  sendMessage dst _ := if dst ∈ t.peers then .ok () else .err (t.unknownPeer dst)

variable [DecidableEq κ]

/-- `LocalTransport.Connect`, on a transport of the same kind. -/
def connect (k j : κ) (ts : κ → LocalTransport κ) : κ → LocalTransport κ :=
  Function.update ts k { ts k with peers := (ts k).peers.insert (ts j).addr j }

/-- Transports that were connected one after the other. -/
def mesh (addrs : κ → NetAddr) (links : List (κ × κ)) : κ → LocalTransport κ :=
  links.foldl (fun ts link => connect link.1 link.2 ts) fun k => newLocalTransport (addrs k)

/-- `LocalTransport.SendMessage`. -/
def sendMessage (k : κ) (dst : NetAddr) (payload : List (Gob.Frame Message)) :
    Act (κ → LocalTransport κ) Err Unit := fun ts =>
  match (ts k).peers.lookup dst with
  | none => (.err ((ts k).unknownPeer dst), ts)
  | some j =>
    if (ts j).consumeCh.length < bufferSize then
      (.ok (), Function.update ts j ((ts j).push ⟨(ts k).addr, payload⟩))
    -- the call has not come back yet
    else (.outOfFuel, ts)

/-- Where a message goes, and as what. -/
def addressed (ts : κ → LocalTransport κ) (k : κ) (dst : NetAddr)
    (payload : List (Gob.Frame Message)) : List (κ × RPC) :=
  ((ts k).peers.lookup dst).toList.map fun j => (j, ⟨(ts k).addr, payload⟩)

end LocalTransport

/-! ### The network -/

/-- What a goroutine of `broadcastTx` or `broadcastBlock` has before it. -/
inductive Spreading (κ : Type)
  -- the goroutine was started
  | launched (m : Broadcast)
  -- in the loop of `Broadcast`, with the peers that are left
  | sending (payload : List (Gob.Frame Message)) (rest : List κ)
  -- it has returned an error
  | failed

/-- `tr.Broadcast` begins, if the message can be encoded. -/
def Broadcast.spread {κ : Type} (C : Codecs) (gobId : ℕ) (peers : List κ) (m : Broadcast) :
    Spreading κ :=
  match m.message C with
  | .ok msg => .sending (msg.bytes gobId) peers
  | _ => .failed

/-- A server with its goroutines. -/
structure LocalNode (κ E S : Type) extends Process E S where
  -- what the goroutine of `initTransports` has taken from the channel
  relayed : Option RPC
  -- what the loop of `Start` has got from it and not decoded
  received : Option RPC
  -- what the loop is handing to the transport
  outgoing : List Envelope
  spreading : List (Spreading κ)

namespace LocalNode

variable {κ E S : Type}

/-- A server whose loop is about to be started. -/
def start (n : Node E S) : LocalNode κ E S :=
  { Process.start n with relayed := none, received := none, outgoing := [], spreading := [] }

/-- After a turn of one of the goroutines that `Process` has. Each broadcast that was launched is
a goroutine. -/
def turned (n : LocalNode κ E S) (s : Process E S) : LocalNode κ E S :=
  { n with
    toProcess := s
    spreading := n.spreading ++
      (s.node.launched.drop n.node.launched.length).map Spreading.launched }

/-- What the loop has sent in a turn. It is the last thing that the turn does. -/
def mail (n : LocalNode κ E S) (s : Process E S) : List Envelope :=
  s.node.sent.drop n.node.sent.length

end LocalNode

/-- Servers, each on a transport of its own. -/
structure LocalNet (κ E S : Type) where
  transports : κ → LocalTransport κ
  nodes : κ → LocalNode κ E S

/-- What can happen. -/
inductive LocalEvent (κ : Type)
  -- a turn of the JSON-RPC server or of the validator loop
  | work (k : κ) (t : Turn)
  -- the loop takes a step in `ProcessMessage`
  | handle (k : κ) (now : Int64)
  -- the loop decodes what it has got, and begins with `ProcessMessage`
  | accept (k : κ) (moment : Moment)
  -- a call of `SendMessage` by the loop comes back
  | mail (k : κ)
  -- a goroutine encodes what it broadcasts, and the range over the peers begins
  | encode (k : κ) (i : ℕ) (order : List NetAddr)
  -- a call of `SendMessage` by the goroutine comes back
  | spread (k : κ) (i : ℕ)
  -- the goroutine of `initTransports` takes a message from the channel, and hands it to the loop
  | relay (k : κ)
  | hand (k : κ)

/-- What an event amounts to. -/
structure Traffic (κ : Type) where
  -- the turns of processes
  turns : List ((κ × Turn) × Outcome Err Unit) := []
  -- what goes into which channel
  put : List (κ × RPC) := []
  -- what the loop of which server takes up
  taken : List (κ × RPC) := []
  -- what the loop of which server has sent
  mailed : List (κ × Envelope) := []

namespace LocalNet

variable {κ E S : Type} [DecidableEq κ]

/-- The servers, without what is between them. -/
def processes (net : LocalNet κ E S) : κ → Process E S := fun k => (net.nodes k).toProcess

def withNode (net : LocalNet κ E S) (k : κ) (n : LocalNode κ E S) : LocalNet κ E S :=
  { net with nodes := Function.update net.nodes k n }

def withTransports (net : LocalNet κ E S) (ts : κ → LocalTransport κ) : LocalNet κ E S :=
  { net with transports := ts }

/-- What was put into the channel of a transport and not taken up by the loop, oldest first. -/
def inFlight (net : LocalNet κ E S) (k : κ) : List RPC :=
  (net.nodes k).received.toList ++ (net.nodes k).relayed.toList ++ (net.transports k).consumeCh

variable (P : Primitives) [ConsensusEngine P E] [SealingEngine P E] [Storage P S] (C : Codecs)

/-- What can happen next. A call that panics is the end of the program. The servers have no seed
nodes: `bootstrap` would give a `TCPTransport` to `Connect`, which is a panic too, and so is
every call of `Connect` in `handleSharePeers`. -/
inductive Step (net : LocalNet κ E S) : LocalEvent κ → Traffic κ → LocalNet κ E S → Prop
  | work {k : κ} {t : Turn} {o : Outcome Err Unit} {s : Process E S} (aside : t.Aside)
      (call : Process.Step P C (net.nodes k).toProcess t o s) :
      Step net (.work k t) { turns := [((k, t), o)] } (net.withNode k ((net.nodes k).turned s))
  | handle {k : κ} {now : Int64} {o : Outcome Err Unit} {s : Process E S}
      (free : (net.nodes k).outgoing = [])
      (call : Process.Step P C (net.nodes k).toProcess (.handle now) o s) :
      Step net (.handle k now) { turns := [((k, .handle now), o)] }
        (net.withNode k { (net.nodes k).turned s with outgoing := (net.nodes k).mail s })
  | accept {k : κ} {moment : Moment} {rpc : RPC} {msg : DecodedMessage} {o : Outcome Err Unit}
      {s : Process E S} (given : (net.nodes k).received = some rpc)
      (free : (net.nodes k).outgoing = []) (decoded : defaultRPCDecodeFunc C rpc = .ok msg)
      (call : Process.Step P C (net.nodes k).toProcess (.receive moment msg) o s)
      (undialed : s.node.dialed = (net.nodes k).node.dialed) :
      Step net (.accept k moment)
        { turns := [((k, .receive moment msg), o)], taken := [(k, rpc)] }
        (net.withNode k
          { (net.nodes k).turned s with received := none, outgoing := (net.nodes k).mail s })
  | mail {k : κ} {env : Envelope} {rest : List Envelope} {o : Outcome Err Unit}
      {ts : κ → LocalTransport κ} (waiting : (net.nodes k).outgoing = env :: rest)
      (call : LocalTransport.sendMessage k env.dst env.payload net.transports = (o, ts))
      (returns : o.Returns) :
      Step net (.mail k)
        { put := LocalTransport.addressed net.transports k env.dst env.payload
          mailed := [(k, env)] }
        ((net.withTransports ts).withNode k { net.nodes k with outgoing := rest })
  | encode {k : κ} {i : ℕ} {m : Broadcast} {order : List NetAddr}
      (started : (net.nodes k).spreading[i]? = some (.launched m)) (once : order.Nodup)
      (all : ∀ addr, addr ∈ order ↔ addr ∈ (net.transports k).peers) :
      Step net (.encode k i order) {}
        (net.withNode k { net.nodes k with
          spreading := (net.nodes k).spreading.set i
            (m.spread C (net.nodes k).node.gobId
              (order.filterMap (net.transports k).peers.lookup)) })
  | spread {k j : κ} {i : ℕ} {payload : List (Gob.Frame Message)} {rest : List κ}
      {o : Outcome Err Unit} {ts : κ → LocalTransport κ}
      (waiting : (net.nodes k).spreading[i]? = some (.sending payload (j :: rest)))
      (call : LocalTransport.sendMessage k (net.transports j).addr payload net.transports =
        (o, ts)) (returns : o.Returns) :
      Step net (.spread k i)
        { put := LocalTransport.addressed net.transports k (net.transports j).addr payload }
        ((net.withTransports ts).withNode k { net.nodes k with
          spreading := (net.nodes k).spreading.set i
            -- `Broadcast` returns the first error
            (if o = .ok () then .sending payload rest else .failed) })
  | relay {k : κ} {rpc : RPC} {rest : List RPC}
      (waiting : (net.transports k).consumeCh = rpc :: rest)
      (free : (net.nodes k).relayed = none) :
      Step net (.relay k)
        { turns := [((k, .meet rpc.sender (net.transports k).toTransport), .ok ())] }
        ((net.withTransports
            (Function.update net.transports k { net.transports k with consumeCh := rest })).withNode
          k { net.nodes k with
            node := (net.nodes k).node.addPeer rpc.sender (net.transports k).toTransport
            relayed := some rpc })
  | hand {k : κ} {rpc : RPC} (given : (net.nodes k).relayed = some rpc)
      (idle : (net.nodes k).handler = .idle) (empty : (net.nodes k).received = none)
      (free : (net.nodes k).outgoing = []) :
      Step net (.hand k) {}
        (net.withNode k { net.nodes k with relayed := none, received := some rpc })

/-- The transports are connected, and each server has just been made on its own one. -/
structure Started (net : LocalNet κ E S) : Prop where
  transports : ∃ addrs links, net.transports = LocalTransport.mesh addrs links
  nodes : ∀ k, ∃ fuel opts n, Node.newServer P fuel opts = .ok n ∧
    opts.transports = [((net.transports k).addr, (net.transports k).toTransport)] ∧
    net.nodes k = .start n

end LocalNet

/-! ### What a call of `SendMessage` does -/

namespace LocalTransport

variable {κ : Type} [DecidableEq κ] {ts ts' : κ → LocalTransport κ}

/-- Addresses and peers are the same. -/
def SameLinks (ts ts' : κ → LocalTransport κ) : Prop :=
  ∀ k, (ts' k).addr = (ts k).addr ∧ (ts' k).peers = (ts k).peers

omit [DecidableEq κ] in
theorem SameLinks.toTransport (h : SameLinks ts ts') (k : κ) :
    (ts' k).toTransport = (ts k).toTransport := by
  unfold LocalTransport.toTransport unknownPeer
  rw [(h k).1, (h k).2]

/-- The channels have got these messages, and there was room for them. -/
structure Posted (put : List (κ × RPC)) (ts ts' : κ → LocalTransport κ) : Prop where
  links : SameLinks ts ts'
  consumeCh : ∀ k, (ts' k).consumeCh = (ts k).consumeCh ++ part k put
  room : ∀ k, (ts k).consumeCh.length ≤ bufferSize → (ts' k).consumeCh.length ≤ bufferSize

/-- A call that has come back. -/
theorem posted_of_sendMessage {k : κ} {dst : NetAddr} {payload : List (Gob.Frame Message)}
    {o : Outcome Err Unit} (hcall : sendMessage k dst payload ts = (o, ts')) (hret : o.Returns) :
    Posted (addressed ts k dst payload) ts ts' := by
  unfold sendMessage at hcall
  cases hpeer : (ts k).peers.lookup dst with
  | none =>
    rw [hpeer] at hcall
    obtain rfl := (Prod.mk.inj hcall).2
    refine ⟨fun _ => ⟨rfl, rfl⟩, fun i => ?_, fun _ h => h⟩
    rw [addressed, hpeer]
    exact (List.append_nil _).symm
  | some j =>
    rw [hpeer] at hcall
    simp only at hcall
    split at hcall
    · rename_i hroom
      obtain rfl := (Prod.mk.inj hcall).2
      rw [addressed, hpeer]
      refine ⟨fun i => ?_, fun i => ?_, fun i hi => ?_⟩
      · by_cases heq : i = j
        · subst heq
          rw [Function.update_self]
          exact ⟨rfl, rfl⟩
        · rw [Function.update_of_ne heq]
          exact ⟨rfl, rfl⟩
      · by_cases heq : i = j
        · subst heq
          rw [Function.update_self]
          exact congrArg _ (part_self _).symm
        · rw [Function.update_of_ne heq]
          exact (List.append_right_eq_self.mpr (part_of_ne _ (Ne.symm heq))).symm
      · by_cases heq : i = j
        · subst heq
          rw [Function.update_self]
          show ((ts i).consumeCh ++ [_]).length ≤ _
          rw [List.length_append, List.length_singleton]
          exact hroom
        · rwa [Function.update_of_ne heq]
    · rw [← (Prod.mk.inj hcall).1] at hret
      exact hret.elim

/-- Every peer is entered under its address. -/
def Linked (ts : κ → LocalTransport κ) : Prop :=
  ∀ k addr j, (ts k).peers.lookup addr = some j → (ts j).addr = addr

omit [DecidableEq κ] in
theorem Linked.congr (h : Linked ts) (hsame : SameLinks ts ts') : Linked ts' := by
  intro k addr j hpeer
  rw [(hsame k).2] at hpeer
  rw [(hsame j).1]
  exact h k addr j hpeer

theorem Linked.connect (h : Linked ts) (k j : κ) : Linked (connect k j ts) := by
  have haddr : ∀ i, (LocalTransport.connect k j ts i).addr = (ts i).addr := by
    intro i
    unfold LocalTransport.connect
    by_cases heq : i = k
    · subst heq
      rw [Function.update_self]
    · rw [Function.update_of_ne heq]
  intro i addr i' hpeer
  rw [haddr]
  unfold LocalTransport.connect at hpeer
  by_cases heq : i = k
  · subst heq
    rw [Function.update_self] at hpeer
    by_cases hnew : addr = (ts j).addr
    · subst hnew
      rw [Finmap.lookup_insert] at hpeer
      rw [Option.some.inj hpeer]
    · rw [Finmap.lookup_insert_of_ne _ hnew] at hpeer
      exact h i addr i' hpeer
  · rw [Function.update_of_ne heq] at hpeer
    exact h i addr i' hpeer

/-- Transports that were only connected: every peer has its address, and the channels are empty. -/
theorem mesh_linked (addrs : κ → NetAddr) (links : List (κ × κ)) :
    Linked (mesh addrs links) ∧ ∀ k, (mesh addrs links k).consumeCh = [] := by
  unfold mesh
  refine List.foldlRecOn (motive := fun ts => Linked ts ∧ ∀ k, (ts k).consumeCh = []) links _
    ?_ ?_
  · refine ⟨fun k addr j hpeer => ?_, fun _ => rfl⟩
    exact absurd hpeer (by simp [newLocalTransport])
  · rintro ts ⟨hlinked, hempty⟩ link -
    refine ⟨hlinked.connect _ _, fun k => ?_⟩
    unfold LocalTransport.connect
    by_cases heq : k = link.1
    · subst heq
      rw [Function.update_self]
      exact hempty _
    · rw [Function.update_of_ne heq]
      exact hempty k

omit [DecidableEq κ] in
theorem addressed_of_lookup {k j : κ} {dst : NetAddr} (hpeer : (ts k).peers.lookup dst = some j)
    (payload : List (Gob.Frame Message)) :
    addressed ts k dst payload = [(j, ⟨(ts k).addr, payload⟩)] := by
  rw [addressed, hpeer]
  rfl

end LocalTransport

/-! ### What an event does -/

namespace LocalNet

variable {κ E S : Type} [DecidableEq κ] {net net' : LocalNet κ E S}

@[simp] theorem withNode_transports (k : κ) (n : LocalNode κ E S) :
    (net.withNode k n).transports = net.transports := rfl

omit [DecidableEq κ] in
@[simp] theorem withTransports_transports (ts : κ → LocalTransport κ) :
    (net.withTransports ts).transports = ts := rfl

omit [DecidableEq κ] in
@[simp] theorem withTransports_nodes (ts : κ → LocalTransport κ) :
    (net.withTransports ts).nodes = net.nodes := rfl

@[simp] theorem withNode_self (k : κ) (n : LocalNode κ E S) : (net.withNode k n).nodes k = n :=
  Function.update_self _ _ _

theorem withNode_of_ne {j k : κ} (n : LocalNode κ E S) (hne : j ≠ k) :
    (net.withNode k n).nodes j = net.nodes j :=
  Function.update_of_ne hne _ _

theorem processes_withNode (k : κ) (n : LocalNode κ E S) :
    (net.withNode k n).processes = Function.update net.processes k n.toProcess := by
  funext j
  unfold processes
  by_cases heq : j = k
  · subst heq
    rw [withNode_self, Function.update_self]
  · rw [withNode_of_ne n heq, Function.update_of_ne heq]

/-- A server with the same messages at hand. -/
theorem inFlight_withNode {k : κ} {n : LocalNode κ E S}
    (hreceived : n.received = (net.nodes k).received)
    (hrelayed : n.relayed = (net.nodes k).relayed) (j : κ) :
    (net.withNode k n).inFlight j = net.inFlight j := by
  unfold inFlight
  rw [withNode_transports]
  by_cases heq : j = k
  · subst heq
    rw [withNode_self, hreceived, hrelayed]
  · rw [withNode_of_ne n heq]

theorem inFlight_posted {put : List (κ × RPC)} {ts : κ → LocalTransport κ}
    (h : LocalTransport.Posted put net.transports ts) (j : κ) :
    (net.withTransports ts).inFlight j = net.inFlight j ++ part j put := by
  unfold inFlight
  rw [withTransports_transports, withTransports_nodes, h.consumeCh j]
  exact (List.append_assoc _ _ _).symm

variable {P : Primitives} [ConsensusEngine P E] [SealingEngine P E] [Storage P S] {C : Codecs}
  {e : LocalEvent κ} {tr : Traffic κ}

/-- Nobody is connected any more. -/
theorem Step.sameLinks (hstep : Step P C net e tr net') :
    LocalTransport.SameLinks net.transports net'.transports := by
  cases hstep with
  | mail _ call returns => exact (LocalTransport.posted_of_sendMessage call returns).links
  | spread _ call returns => exact (LocalTransport.posted_of_sendMessage call returns).links
  | @relay k _ _ _ _ =>
    intro j
    rw [withNode_transports, withTransports_transports]
    by_cases heq : j = k
    · subst heq
      rw [Function.update_self]
      exact ⟨rfl, rfl⟩
    · rw [Function.update_of_ne heq]
      exact ⟨rfl, rfl⟩
  | _ => exact fun _ => ⟨rfl, rfl⟩

/-- No channel is over-full. -/
theorem Step.room (hstep : Step P C net e tr net') {k : κ}
    (hroom : (net.transports k).consumeCh.length ≤ LocalTransport.bufferSize) :
    (net'.transports k).consumeCh.length ≤ LocalTransport.bufferSize := by
  cases hstep with
  | mail _ call returns => exact (LocalTransport.posted_of_sendMessage call returns).room k hroom
  | spread _ call returns => exact (LocalTransport.posted_of_sendMessage call returns).room k hroom
  | @relay k' _ _ waiting _ =>
    rw [withNode_transports, withTransports_transports]
    by_cases heq : k = k'
    · subst heq
      rw [Function.update_self]
      rw [waiting, List.length_cons] at hroom
      exact Nat.le_of_succ_le hroom
    · rwa [Function.update_of_ne heq]
  | _ => exact hroom

/-- **One event.** What is on the way to a server is taken up in the order in which it was put. -/
theorem Step.inFlight (hstep : Step P C net e tr net') (k : κ) :
    net.inFlight k ++ part k tr.put = part k tr.taken ++ net'.inFlight k := by
  cases hstep with
  | work _ _ =>
    rw [inFlight_withNode (by rfl) (by rfl)]
    exact List.append_nil _
  | handle _ _ =>
    rw [inFlight_withNode (by rfl) (by rfl)]
    exact List.append_nil _
  | encode _ _ _ =>
    rw [inFlight_withNode (by rfl) (by rfl)]
    exact List.append_nil _
  | mail _ call returns =>
    rw [inFlight_withNode (by rfl) (by rfl)]
    exact (inFlight_posted (LocalTransport.posted_of_sendMessage call returns) k).symm
  | spread _ call returns =>
    rw [inFlight_withNode (by rfl) (by rfl)]
    exact (inFlight_posted (LocalTransport.posted_of_sendMessage call returns) k).symm
  | @accept k' _ rpc _ _ _ given _ _ _ _ =>
    show net.inFlight k ++ [] = part k [(k', rpc)] ++ _
    unfold LocalNet.inFlight
    rw [withNode_transports, List.append_nil]
    by_cases heq : k = k'
    · subst heq
      rw [withNode_self, part_self, given]
      rfl
    · rw [withNode_of_ne _ heq, part_of_ne _ (Ne.symm heq), List.nil_append]
  | @relay k' rpc _ waiting free =>
    show net.inFlight k ++ [] = _
    unfold LocalNet.inFlight
    rw [withNode_transports, withTransports_transports, List.append_nil]
    by_cases heq : k = k'
    · subst heq
      rw [withNode_self, Function.update_self, waiting, free]
      show (net.nodes k).received.toList ++ [] ++ rpc :: _ = _ ++ [rpc] ++ _
      rw [List.append_nil]
      exact List.append_cons _ _ _
    · rw [withNode_of_ne _ heq, Function.update_of_ne heq]
      rfl
  | @hand k' rpc given _ empty _ =>
    show net.inFlight k ++ [] = _
    unfold LocalNet.inFlight
    rw [withNode_transports, List.append_nil]
    by_cases heq : k = k'
    · subst heq
      rw [withNode_self, given, empty]
      rfl
    · rw [withNode_of_ne _ heq]
      rfl

end LocalNet

end Blockz
