import Blockz.Framework.Upholds
import Blockz.Network.Loop

/-!
# What a turn sends

A handler sends through a transport that it finds in the map of peers, or through the first one. A
message that the transport has taken is in `sent`, and a broadcast that a goroutine was started for
is in `launched`. `Node.Mails` says how a turn may change these records, and `Process.Step.mails`
that every turn keeps to it: it appends, and what it appends to `sent` was taken by a transport that
the node uses.
-/

namespace Blockz

open Effect

variable {E S : Type}

namespace Node

/-- The node sends by this transport. -/
def Uses (n : Node E S) (tr : Transport) : Prop :=
  (∃ addr, n.peers addr = some tr) ∨ ∃ addr, (addr, tr) ∈ n.transports

/-- One of the transports that the node uses takes the message. -/
def Takes (n : Node E S) (env : Envelope) : Prop :=
  ∃ tr, n.Uses tr ∧ tr.sendMessage env.dst env.payload = .ok ()

/-- The server has gone on from `n` by sending. -/
structure MailsServer (n : Node E S) (s : Server E S) : Prop where
  sent : ∃ new, s.sent = n.sent ++ new ∧ ∀ env ∈ new, n.Takes env
  gobId : s.gobId = n.gobId
  peers : s.peers = n.peers

/-- So has the node, and it may have started broadcasts. -/
structure Mails (n n' : Node E S) : Prop where
  server : n.MailsServer n'.toServer
  launched : n.launched <+: n'.launched
  transports : n'.transports = n.transports

theorem Mails.refl (n : Node E S) : n.Mails n :=
  ⟨⟨⟨[], (List.append_nil _).symm, by simp⟩, rfl, rfl⟩, List.prefix_rfl, rfl⟩

theorem MailsServer.append {n : Node E S} {s : Server E S} (hs : n.MailsServer s) {env : Envelope}
    (henv : n.Takes env) : n.MailsServer { s with sent := s.sent ++ [env] } := by
  obtain ⟨new, hsent, hnew⟩ := hs.sent
  refine ⟨⟨new ++ [env], ?_, fun x hx => ?_⟩, hs.gobId, hs.peers⟩
  · show s.sent ++ [env] = _
    rw [hsent, List.append_assoc]
  · rcases List.mem_append.mp hx with hold | hlast
    · exact hnew x hold
    · rw [List.mem_singleton.mp hlast]
      exact henv

theorem MailsServer.uses_of_findPeer {n : Node E S} {s : Server E S} (hs : n.MailsServer s)
    {addr : NetAddr} {tr : Transport} (hfind : s.findPeer addr = some tr) : n.Uses tr := by
  unfold Server.findPeer at hfind
  rw [hs.peers] at hfind
  split at hfind
  · rename_i tr' hpeer
    obtain rfl := Option.some.inj hfind
    exact Or.inl ⟨addr, hpeer⟩
  · obtain ⟨addr', -, hpeer⟩ := Option.bind_eq_some_iff.mp hfind
    exact Or.inl ⟨addr', hpeer⟩

variable {n₀ : Node E S} {C : Codecs}

/-! ### The handlers -/

theorem mails_send (addr : NetAddr) (msg : Message) :
    Act.Upholds (MailsServer n₀) (fun _ => True) (Server.send addr msg) := by
  refine Act.Upholds.get.bind fun s hs => ?_
  cases hfind : s.findPeer addr with
  | none => exact Act.Upholds.lift fun _ _ => trivial
  | some tr =>
    have htaken : Act.Upholds (MailsServer n₀)
        (fun _ => tr.sendMessage addr (msg.bytes s.gobId) = .ok ())
        (Act.lift (tr.sendMessage addr (msg.bytes s.gobId))) :=
      Act.Upholds.lift fun _ hok => hok
    refine htaken.bind fun _ hok => Act.Upholds.modify fun s' hs' => hs'.append ?_
    rw [hs'.gobId, ← hs.gobId]
    exact ⟨tr, hs.uses_of_findPeer hfind, hok⟩

theorem mails_onServer {α : Type} {Q : α → Prop} {m : Act (Server E S) Err α}
    (hm : Act.Upholds (MailsServer n₀) Q m) : Act.Upholds (Mails n₀) Q (onServer m) :=
  hm.on (fun _ hn => hn.server) fun _ _ hn hs => ⟨hs, hn.launched, hn.transports⟩

theorem mails_onChain {α : Type} (m : Act (Blockchain E S) Err α) :
    Act.Upholds (Mails n₀) (fun _ => True) (onChain m) :=
  fun _ hn => ⟨⟨⟨hn.server.sent, hn.server.gobId, hn.server.peers⟩, hn.launched, hn.transports⟩,
    fun _ _ => trivial⟩

theorem mails_onPool {α : Type} (m : Act TxPool Err α) :
    Act.Upholds (Mails n₀) (fun _ => True) (onPool m) :=
  fun _ hn => ⟨⟨hn.server, hn.launched, hn.transports⟩, fun _ _ => trivial⟩

theorem mails_launch (b : Broadcast) :
    Act.Upholds (Mails n₀) (fun _ => True) (launch b) :=
  Act.Upholds.modify fun _ hn =>
    ⟨hn.server, hn.launched.trans (List.prefix_append _ _), hn.transports⟩

/-- A message that goes out by the first transport. -/
theorem mails_first (dst : NetAddr) {n : Node E S} (hn : n₀.Mails n)
    (payload : List (Gob.Frame Message)) :
    Act.Upholds (Mails n₀) (fun _ => True) (do
      let (_, tr) ← Act.lift n.firstTransport
      Act.lift (tr.sendMessage dst payload)
      Act.modify fun n => { n with sent := n.sent ++ [⟨dst, payload⟩] }) := by
  have hfirst : Act.Upholds (Mails n₀) (fun p => p ∈ n.transports)
      (Act.lift n.firstTransport) := by
    refine Act.Upholds.lift fun p hp => ?_
    unfold firstTransport at hp
    split at hp
    · exact nomatch hp
    · rename_i htransports
      rw [htransports, ← Outcome.ok.inj hp]
      exact List.mem_cons_self
  refine hfirst.bind fun p hp => ?_
  have htaken : Act.Upholds (Mails n₀) (fun _ => p.2.sendMessage dst payload = .ok ())
      (Act.lift (p.2.sendMessage dst payload)) := Act.Upholds.lift fun _ hok => hok
  refine htaken.bind fun _ hok => Act.Upholds.modify fun n' hn' => ?_
  rw [hn.transports] at hp
  exact ⟨hn'.server.append ⟨p.2, Or.inr ⟨p.1, hp⟩, hok⟩, hn'.launched, hn'.transports⟩

theorem mails_sendGetPeers (dst : NetAddr) :
    Act.Upholds (Mails n₀) (fun _ => True) (sendGetPeers dst) :=
  Act.Upholds.get.bind fun _ hn => mails_first dst hn _

theorem mails_handleGetPeers (moment : Moment) (sender : NetAddr) :
    Act.Upholds (Mails n₀) (fun _ => True) (handleGetPeers C moment sender) := by
  refine Act.Upholds.get.bind fun n hn => ?_
  refine (Act.Upholds.lift fun _ _ => trivial).bind fun data (_ : True) => ?_
  exact mails_first sender hn _

theorem mails_handleSharePeers (peers : List NetAddr) :
    Act.Upholds (Mails n₀) (fun _ => True) (handleSharePeers peers) := by
  refine Act.Upholds.forEach fun addr _ => Act.Upholds.get.bind fun n _ => ?_
  split
  · exact Act.Upholds.pure trivial
  · refine (Act.Upholds.lift fun _ _ => trivial).bind fun p (_ : True) => ?_
    show Act.Upholds _ _ (if addr ≠ p.1 then _ else _)
    split
    · exact Act.Upholds.modify fun _ hn => ⟨hn.server, hn.launched, hn.transports⟩
    · exact Act.Upholds.pure trivial

theorem mails_call {P : Primitives} (c : Call) (now : Int64) :
    Act.Upholds (Mails n₀) (fun _ => True) (c.step P now) := by
  obtain ⟨tx, stage⟩ := c
  cases stage with
  | lookup => exact Act.Upholds.get.bind fun _ _ => Act.Upholds.pure trivial
  | verify =>
    exact (Act.Upholds.lift fun _ _ => trivial).bind fun _ (_ : True) =>
      (mails_launch _).bind fun _ _ => Act.Upholds.pure trivial
  | add stage => exact (mails_onPool _).bind fun _ _ => Act.Upholds.pure trivial

end Node

namespace Process

open Node

variable {n₀ : Node E S} {P : Primitives} {C : Codecs}

theorem mails_start (moment : Moment) (msg : DecodedMessage) :
    Act.Upholds (Mails n₀) (fun _ => True) (Handler.start C moment msg) := by
  obtain ⟨sender, data⟩ := msg
  cases data with
  | transaction tx => exact Act.Upholds.pure trivial
  | block b => exact Act.Upholds.pure trivial
  | getBlocks req => exact Act.Upholds.get.bind fun _ _ => Act.Upholds.pure trivial
  | blocks received => exact Act.Upholds.pure trivial
  | status st => exact Act.Upholds.get.bind fun _ _ => Act.Upholds.pure trivial
  | getStatus =>
    have hstatus : Act.Upholds (MailsServer n₀) (fun _ => True)
        (Server.processGetStatusMessage C sender) :=
      Act.Upholds.get.bind fun _ _ => (Act.Upholds.lift fun _ _ => trivial).bind
        fun _ (_ : True) => mails_send _ _
    exact (mails_onServer hstatus).bind fun _ _ => Act.Upholds.pure trivial
  | getPeers => exact (mails_handleGetPeers _ _).bind fun _ _ => Act.Upholds.pure trivial
  | sharePeers peers => exact (mails_handleSharePeers _).bind fun _ _ => Act.Upholds.pure trivial

variable [ConsensusEngine P E] [Storage P S]

theorem mails_handler (h : Handler) (fuel : ℕ) (now : Int64) :
    Act.Upholds (Mails n₀) (fun _ => True) (h.step P C fuel now) := by
  cases h with
  | idle => exact Act.Upholds.pure trivial
  | submitting c => exact (mails_call c now).bind fun _ _ => Act.Upholds.pure trivial
  | adding sender b =>
    exact (mails_onChain _).attempt.bind fun _ _ => Act.Upholds.pure trivial
  | added sender b result =>
    cases result with
    | ok _ => exact (mails_launch _).bind fun _ _ => Act.Upholds.pure trivial
    | error e =>
      show Act.Upholds _ _ (if _ then _ else if _ then _ else _)
      split
      · exact Act.Upholds.pure trivial
      · split
        · exact Act.Upholds.pure trivial
        · exact Act.Upholds.lift fun _ _ => trivial
  | asking sender last =>
    refine Act.Upholds.get.bind fun _ _ => ?_
    have hask : ∀ msg, Act.Upholds (MailsServer n₀) (fun _ => True)
        (Server.sendGetBlocks C sender msg) := fun msg =>
      (Act.Upholds.lift fun _ _ => trivial).bind fun _ (_ : True) => mails_send _ _
    exact (mails_onServer (hask _)).bind fun _ _ => Act.Upholds.pure trivial
  | bounding sender first => exact Act.Upholds.get.bind fun _ _ => Act.Upholds.pure trivial
  | collecting sender i last blocks =>
    refine Act.Upholds.get.bind fun n _ => ?_
    split
    · exact (Act.Upholds.lift fun _ _ => trivial).bind fun _ (_ : True) => Act.Upholds.pure trivial
    · exact (Act.Upholds.lift fun _ _ => trivial).bind fun _ (_ : True) =>
        (mails_onServer (mails_send _ _)).bind fun _ _ => Act.Upholds.pure trivial
  | batch rest =>
    cases rest with
    | nil => exact Act.Upholds.pure trivial
    | cons b rest => exact (mails_onChain _).bind fun _ _ => Act.Upholds.pure trivial

theorem mails_production [SealingEngine P E] (p : Production) (fuel : ℕ) (key : PrivateKey)
    (tick : Tick) : Act.Upholds (Mails n₀) (fun _ => True) (p.step P fuel key tick) := by
  cases p with
  | idle =>
    exact Act.Upholds.get.bind fun _ _ =>
      (Act.Upholds.lift fun _ _ => trivial).bind fun _ (_ : True) => Act.Upholds.pure trivial
  | headerRead h => exact Act.Upholds.get.bind fun _ _ => Act.Upholds.pure trivial
  | pendingRead h txx =>
    exact Act.Upholds.get.bind fun _ _ =>
      (Act.Upholds.lift fun _ _ => trivial).bind fun _ (_ : True) => Act.Upholds.pure trivial
  | signed b => exact (mails_onChain _).bind fun _ _ => Act.Upholds.pure trivial
  | added b =>
    have hclear : Act.Upholds (Mails n₀) (fun _ => True) (Act.modify fun n =>
        { n with memPool := n.memPool.clearPending } : Act (Node E S) Err Unit) :=
      Act.Upholds.modify fun _ hn => ⟨hn.server, hn.launched, hn.transports⟩
    exact hclear.bind fun _ _ => (mails_launch _).bind fun _ _ => Act.Upholds.pure trivial

/-! ### Turns -/

variable [SealingEngine P E] {s s' : Process E S} {t : Turn} {o : Outcome Err Unit}

/-- **What a turn does to the records.** The goroutine of `initTransports` is apart: it enters a
peer. -/
theorem Step.mails (hstep : Step P C s t o s') (hturn : ∀ addr tr, t ≠ .meet addr tr) :
    s.node.Mails s'.node := by
  have hcall : ∀ {α : Type} {m : Act (Node E S) Err α} {o : Outcome Err α} {n' : Node E S},
      Act.Upholds (Mails s.node) (fun _ => True) m → m s.node = (o, n') → s.node.Mails n' := by
    intro α m o n' hm hcall
    have hstate := (hm s.node (.refl _)).1
    rwa [hcall] at hstate
  cases hstep with
  | submit _ => exact .refl _
  | advance _ call _ => exact hcall (mails_call _ _) call
  | produce _ call _ => exact hcall (mails_production _ _ _ _) call
  | receive _ call _ => exact hcall (mails_start _ _) call
  | handle call _ => exact hcall (mails_handler _ _ _) call
  | greet call _ => exact hcall (mails_onServer (mails_send _ _)) call
  | askPeers call _ => exact hcall (mails_sendGetPeers _) call
  | meet => exact absurd rfl (hturn _ _)

end Process

/-- The turns of the JSON-RPC server and of the validator loop. -/
def Turn.Aside : Turn → Prop
  | .submit _ _ => True
  | .advance _ _ => True
  | .produce _ => True
  | _ => False

namespace Process

variable {P : Primitives} [ConsensusEngine P E] [Storage P S] [SealingEngine P E] {C : Codecs}
  {s s' : Process E S} {t : Turn} {o : Outcome Err Unit}

/-- They send nothing themselves: what they have to say goes to a goroutine. -/
theorem Step.sent_eq (hstep : Step P C s t o s') (hturn : t.Aside) :
    s'.node.sent = s.node.sent := by
  let Same : Node E S → Node E S → Prop := fun n n' => n'.sent = n.sent
  have : Std.Refl Same := ⟨fun _ => rfl⟩
  have : IsTrans (Node E S) Same := ⟨fun _ _ _ h₁ h₂ => Eq.trans h₂ h₁⟩
  cases hstep with
  | submit _ => rfl
  | @advance _ now c _ _ _ call _ =>
    have hmoves : Act.Moves Same (c.step P now) := by
      obtain ⟨tx, stage⟩ := c
      cases stage with
      | lookup => exact Act.Moves.get.bind fun _ => Act.Moves.pure _
      | verify =>
        exact (Act.Moves.lift _).bind fun _ => Act.Moves.bind (fun _ => rfl) fun _ =>
          Act.Moves.pure _
      | add stage => exact Act.Moves.bind (fun _ => rfl) fun _ => Act.Moves.pure _
    exact hmoves.of_call call
  | @produce tick key fuel _ _ _ call _ =>
    have hmoves : Act.Moves Same (s.producer.step P fuel key tick) := by
      cases s.producer with
      | idle => exact Act.Moves.get.bind fun _ => (Act.Moves.lift _).bind fun _ => Act.Moves.pure _
      | headerRead h => exact Act.Moves.get.bind fun _ => Act.Moves.pure _
      | pendingRead h txx =>
        exact Act.Moves.get.bind fun _ => (Act.Moves.lift _).bind fun _ => Act.Moves.pure _
      | signed b => exact Act.Moves.bind (fun _ => rfl) fun _ => Act.Moves.pure _
      | added b =>
        exact Act.Moves.bind (fun _ => rfl) fun _ => Act.Moves.bind (fun _ => rfl) fun _ =>
          Act.Moves.pure _
    exact hmoves.of_call call
  | _ => exact hturn.elim

end Process

end Blockz
