import Blockz.Framework.Swarm
import Blockz.Framework.Upholds
import Blockz.Network.Loop

/-!
# A network of processes

Any number of processes, each with all its goroutines. What a process has sent stays in its records,
so the states of the processes say what is on the wire: a message that one of them has sent may
arrive anywhere, at any later time, any number of times, or never. This covers every transport that
does not forge messages, and every order of the steps.

Most properties of such a network are about where blocks and transactions come from. `Marking` is a
property of blocks and transactions that gob carries, and `Process.Marked` says that everything a
process holds has it: its store, its pool, what it has sent, and what its goroutines have at hand.

* `Codecs.Faithful` — gob returns the exported fields.
* `Arrives` — what can be received.
* `Process.Marked.step` — a turn keeps the marking, if what it gets from outside is marked and, when
  it completes a block of its own, this block is.
-/

namespace Blockz

open Effect

variable {E S : Type}

/-! ### The wire -/

/-- What is decoded has the exported fields of what was encoded. -/
structure Codecs.Faithful (C : Codecs) : Prop where
  transaction : ∀ {tx tx' : Transaction} {data : List UInt8}, C.transaction.encode tx = .ok data →
    C.transaction.decode data = .ok tx' → tx'.exported = tx.exported
  block : ∀ {b b' : Block} {data : List UInt8}, C.block.encode b = .ok data →
    C.block.decode data = .ok b' → b'.exported = b.exported
  blocks : ∀ {batch batch' : BlocksMessage} {data : List UInt8}, C.blocks.encode batch = .ok data →
    C.blocks.decode data = .ok batch' → batch'.exported = batch.exported

/-- A message that the node has handed to a transport, or that a goroutine of it broadcasts. -/
def Node.Says (C : Codecs) (n : Node E S) (payload : List (Gob.Frame Message)) : Prop :=
  (∃ env ∈ n.sent, env.payload = payload) ∨
    ∃ m ∈ n.launched, ∃ msg, m.message C = .ok msg ∧ payload = msg.bytes n.gobId

/-- What a process can receive: a message that one of the processes has sent. The address that it
seems to come from is left open. -/
def Arrives {κ : Type} (C : Codecs) (c : κ → Process E S) (_ : κ) : Turn → Prop
  | .receive _ msg => ∃ j sender payload, (c j).node.Says C payload ∧
      defaultRPCDecodeFunc C ⟨sender, payload⟩ = .ok msg
  | _ => True

/-! ### Markings -/

/-- A property of blocks and transactions that is a matter of their exported fields. -/
structure Marking where
  block : Block → Prop
  transaction : Transaction → Prop
  block_congr : ∀ {b b' : Block}, b'.exported = b.exported → block b → block b'
  transaction_congr : ∀ {tx tx' : Transaction}, tx'.exported = tx.exported →
    transaction tx → transaction tx'

/-- The transactions of a block are a matter of what is exported. -/
theorem Block.exists_mem_of_exported {b b' : Block} (hexp : b'.exported = b.exported)
    {tx : Transaction} (hmem : tx ∈ b'.transactions) :
    ∃ tx' ∈ b.transactions, tx'.exported = tx.exported := by
  have htxx : b'.transactions.map Transaction.exported =
      b.transactions.map Transaction.exported := (congrArg Block.transactions hexp :)
  have hthere : tx.exported ∈ b.transactions.map Transaction.exported := by
    rw [← htxx]
    exact List.mem_map_of_mem hmem
  exact List.mem_map.mp hthere

/-- The blocks and transactions of a message are marked. -/
def Payload.Marked (K : Marking) : Payload → Prop
  | .transaction tx => K.transaction tx
  | .block b => K.block b
  | .blocks batch => ∀ b ∈ batch.blocks, K.block b
  | _ => True

def Broadcast.Marked (K : Marking) : Broadcast → Prop
  | .transaction tx => K.transaction tx
  | .block b => K.block b

/-- Whoever receives the message gets what is marked. -/
def Marking.Carried (K : Marking) (C : Codecs) (payload : List (Gob.Frame Message)) : Prop :=
  ∀ sender msg, defaultRPCDecodeFunc C ⟨sender, payload⟩ = .ok msg → msg.data.Marked K

/-- What the loop has at hand is marked. -/
def Handler.Marked (K : Marking) : Handler → Prop
  | .submitting c => K.transaction c.tx
  | .adding _ b => K.block b
  | .added _ b _ => K.block b
  | .collecting _ _ _ blocks => ∀ b ∈ blocks, K.block b
  | .batch rest => ∀ b ∈ rest, K.block b
  | _ => True

theorem Handler.Marked.atHand {K : Marking} {h : Handler} {b : Block} (hh : h.Marked K)
    (hb : h.AtHand b) : K.block b := by
  rcases hb with ⟨sender, rfl⟩ | ⟨rest, rfl⟩
  · exact hh
  · exact hh b List.mem_cons_self

/-- So is what `createNewBlock` has at hand. The block itself counts when the chain has it. -/
def Production.Marked (K : Marking) : Production → Prop
  | .pendingRead _ txx => ∀ tx ∈ txx, K.transaction tx
  | .signed b => ∀ tx ∈ b.transactions, K.transaction tx
  | .added b => K.block b
  | _ => True

/-- What a node stores, pools and has sent is marked. -/
structure Node.Marked (P : Primitives) [Storage P S] (C : Codecs) (K : Marking) (n : Node E S) :
    Prop where
  stored : ∀ i b, n.chain.getBlock P i = .ok b → K.block b
  pending : ∀ tx ∈ n.memPool.pending.txx, K.transaction tx
  all : ∀ tx ∈ n.memPool.all.txx, K.transaction tx
  launched : ∀ m ∈ n.launched, m.Marked K
  sent : ∀ env ∈ n.sent, K.Carried C env.payload

structure Process.Marked (P : Primitives) [Storage P S] (C : Codecs) (K : Marking)
    (s : Process E S) : Prop where
  node : s.node.Marked P C K
  calls : ∀ id c, s.calls id = some c → K.transaction c.tx
  producer : s.producer.Marked K
  handler : s.handler.Marked K

/-! ### Weaker markings -/

/-- What the one marks is marked by the other. -/
structure Marking.Implies (K K' : Marking) : Prop where
  block : ∀ b, K.block b → K'.block b
  transaction : ∀ tx, K.transaction tx → K'.transaction tx

section Weaker

variable {K K' : Marking} (hK : K.Implies K')

include hK

theorem Payload.Marked.mono {data : Payload} (hdata : data.Marked K) : data.Marked K' := by
  cases data with
  | transaction tx => exact hK.transaction tx hdata
  | block b => exact hK.block b hdata
  | blocks batch => exact fun b hb => hK.block b (hdata b hb)
  | _ => trivial

theorem Broadcast.Marked.mono {m : Broadcast} (hm : m.Marked K) : m.Marked K' := by
  cases m with
  | transaction tx => exact hK.transaction tx hm
  | block b => exact hK.block b hm

theorem Handler.Marked.mono {h : Handler} (hh : h.Marked K) : h.Marked K' := by
  cases h with
  | submitting c => exact hK.transaction c.tx hh
  | adding _ b => exact hK.block b hh
  | added _ b _ => exact hK.block b hh
  | collecting _ _ _ blocks => exact fun b hb => hK.block b (hh b hb)
  | batch rest => exact fun b hb => hK.block b (hh b hb)
  | _ => trivial

theorem Production.Marked.mono {p : Production} (hp : p.Marked K) : p.Marked K' := by
  cases p with
  | pendingRead _ txx => exact fun tx htx => hK.transaction tx (hp tx htx)
  | signed b => exact fun tx htx => hK.transaction tx (hp tx htx)
  | added b => exact hK.block b hp
  | _ => trivial

theorem Process.Marked.mono {P : Primitives} [Storage P S] {C : Codecs} {s : Process E S}
    (hs : s.Marked P C K) : s.Marked P C K' where
  node :=
    { stored := fun i b hget => hK.block b (hs.node.stored i b hget)
      pending := fun tx hmem => hK.transaction tx (hs.node.pending tx hmem)
      all := fun tx hmem => hK.transaction tx (hs.node.all tx hmem)
      launched := fun m hmem => (hs.node.launched m hmem).mono hK
      sent := fun env hmem sender msg hmsg => (hs.node.sent env hmem sender msg hmsg).mono hK }
  calls := fun id c hc => hK.transaction c.tx (hs.calls id c hc)
  producer := hs.producer.mono hK
  handler := hs.handler.mono hK

end Weaker

/-! ### Messages -/

section Messages

variable {C : Codecs} {K : Marking}

/-- What is decoded from a message that a node has made. -/
theorem Marking.carried_newMessage {t : MessageType} {data : List UInt8}
    (hdata : ∀ payload, C.decode t data = .ok payload → payload.Marked K) (id : ℕ) :
    K.Carried C ((newMessage t data).bytes id) := by
  intro sender msg hmsg
  rw [defaultRPCDecodeFunc_newMessage] at hmsg
  obtain ⟨payload, hpayload, hok⟩ := Outcome.bind_eq_ok.mp hmsg
  rw [← Outcome.ok.inj hok]
  exact hdata payload hpayload

/-- Messages of this type carry neither blocks nor transactions. -/
def MessageType.Plain : MessageType → Prop
  | .tx => False
  | .block => False
  | .blocks => False
  | _ => True

theorem Marking.carried_plain (t : MessageType) (ht : t.Plain) (data : List UInt8) (id : ℕ) :
    K.Carried C ((newMessage t data).bytes id) := by
  refine carried_newMessage (fun payload hpayload => ?_) id
  cases t with
  | tx => exact ht.elim
  | block => exact ht.elim
  | blocks => exact ht.elim
  | getStatus =>
    rw [← Outcome.ok.inj hpayload]
    trivial
  | getPeers =>
    rw [← Outcome.ok.inj hpayload]
    trivial
  | getBlocks =>
    obtain ⟨_, -, hok⟩ := Outcome.bind_eq_ok.mp hpayload
    rw [← Outcome.ok.inj hok]
    trivial
  | status =>
    obtain ⟨_, -, hok⟩ := Outcome.bind_eq_ok.mp hpayload
    rw [← Outcome.ok.inj hok]
    trivial
  | sharePeers =>
    obtain ⟨_, -, hok⟩ := Outcome.bind_eq_ok.mp hpayload
    rw [← Outcome.ok.inj hok]
    trivial

/-- A batch of blocks that are marked. -/
theorem Marking.carried_blocks (hC : C.Faithful) {blocks : List Block} {data : List UInt8}
    (hencode : C.blocks.encode ⟨blocks⟩ = .ok data) (hblocks : ∀ b ∈ blocks, K.block b) (id : ℕ) :
    K.Carried C ((newMessage .blocks data).bytes id) := by
  refine carried_newMessage (fun payload hpayload => ?_) id
  obtain ⟨batch, hdecode, hok⟩ := Outcome.bind_eq_ok.mp hpayload
  rw [← Outcome.ok.inj hok]
  intro b hb
  have hexp : batch.blocks.map Block.exported = blocks.map Block.exported :=
    congrArg BlocksMessage.blocks (hC.blocks hencode hdecode)
  have hmem : b.exported ∈ blocks.map Block.exported := by
    rw [← hexp]
    exact List.mem_map_of_mem hb
  obtain ⟨b₀, hb₀, hsame⟩ := List.mem_map.mp hmem
  exact K.block_congr hsame.symm (hblocks b₀ hb₀)

theorem Broadcast.Marked.carried (hC : C.Faithful) {m : Broadcast} (hm : m.Marked K)
    {msg : Message} (hmsg : m.message C = .ok msg) (id : ℕ) : K.Carried C (msg.bytes id) := by
  cases m with
  | transaction tx =>
    obtain ⟨data, hencode, hok⟩ := Outcome.bind_eq_ok.mp hmsg
    rw [← Outcome.ok.inj hok]
    refine Marking.carried_newMessage (fun payload hpayload => ?_) id
    obtain ⟨tx', hdecode, hok⟩ := Outcome.bind_eq_ok.mp hpayload
    rw [← Outcome.ok.inj hok]
    exact K.transaction_congr (hC.transaction hencode hdecode) hm
  | block b =>
    obtain ⟨data, hencode, hok⟩ := Outcome.bind_eq_ok.mp hmsg
    rw [← Outcome.ok.inj hok]
    refine Marking.carried_newMessage (fun payload hpayload => ?_) id
    obtain ⟨b', hdecode, hok⟩ := Outcome.bind_eq_ok.mp hpayload
    rw [← Outcome.ok.inj hok]
    exact K.block_congr (hC.block hencode hdecode) hm

/-- **What a marked node says is marked.** -/
theorem Node.Marked.said {P : Primitives} [Storage P S] {n : Node E S} (hn : n.Marked P C K)
    (hC : C.Faithful) {payload : List (Gob.Frame Message)} (hsaid : n.Says C payload) :
    K.Carried C payload := by
  rcases hsaid with ⟨env, hmem, rfl⟩ | ⟨m, hmem, msg, hmsg, rfl⟩
  · exact hn.sent env hmem
  · exact (hn.launched m hmem).carried hC hmsg n.gobId

end Messages

/-! ### Sending -/

section Sending

variable {C : Codecs} {K : Marking}

/-- Of what is marked, the call has changed what the server has sent, and has sent what is marked.
-/
def Server.Spoke (C : Codecs) (K : Marking) (s s' : Server E S) : Prop :=
  s'.chain = s.chain ∧ ∀ env ∈ s'.sent, env ∈ s.sent ∨ K.Carried C env.payload

instance : Std.Refl (Server.Spoke C K : Server E S → Server E S → Prop) where
  refl _ := ⟨rfl, fun _ => Or.inl⟩

instance : IsTrans (Server E S) (Server.Spoke C K) where
  trans _ _ _ h₁ h₂ := by
    refine ⟨h₂.1.trans h₁.1, fun env hmem => ?_⟩
    rcases h₂.2 env hmem with hold | hnew
    · exact h₁.2 env hold
    · exact Or.inr hnew

theorem Server.send_spoke (addr : NetAddr) {msg : Message}
    (hmsg : ∀ id, K.Carried C (msg.bytes id)) :
    Act.Moves (Server.Spoke C K) (Server.send addr msg : Act (Server E S) Err Unit) := by
  refine Act.Moves.get.bind fun s => ?_
  split
  · exact Act.Moves.lift _
  · refine (Act.Moves.lift _).bind fun _ s => ⟨rfl, fun env hmem => ?_⟩
    rcases List.mem_append.mp hmem with hold | hnew
    · exact Or.inl hold
    · rw [List.mem_singleton.mp hnew]
      exact Or.inr (hmsg s.gobId)

theorem Server.sendGetBlocks_spoke (sender : NetAddr) (msg : GetBlocksMessage) :
    Act.Moves (Server.Spoke C K) (Server.sendGetBlocks C sender msg : Act (Server E S) Err Unit) :=
  (Act.Moves.lift _).bind fun data =>
    Server.send_spoke sender (Marking.carried_plain .getBlocks trivial data)

theorem Server.processGetStatusMessage_spoke (sender : NetAddr) :
    Act.Moves (Server.Spoke C K)
      (Server.processGetStatusMessage C sender : Act (Server E S) Err Unit) :=
  Act.Moves.get.bind fun _ => (Act.Moves.lift _).bind fun data =>
    Server.send_spoke sender (Marking.carried_plain .status trivial data)

/-- The same for a node, whose pool and broadcasts stay as they are. -/
structure Node.Spoke (C : Codecs) (K : Marking) (n n' : Node E S) : Prop where
  chain : n'.chain = n.chain
  memPool : n'.memPool = n.memPool
  launched : n'.launched = n.launched
  sent : ∀ env ∈ n'.sent, env ∈ n.sent ∨ K.Carried C env.payload

instance : Std.Refl (Node.Spoke C K : Node E S → Node E S → Prop) where
  refl _ := ⟨rfl, rfl, rfl, fun _ => Or.inl⟩

instance : IsTrans (Node E S) (Node.Spoke C K) where
  trans _ _ _ h₁ h₂ := by
    refine ⟨h₂.chain.trans h₁.chain, h₂.memPool.trans h₁.memPool,
      h₂.launched.trans h₁.launched, fun env hmem => ?_⟩
    rcases h₂.sent env hmem with hold | hnew
    · exact h₁.sent env hold
    · exact Or.inr hnew

theorem Node.onServer_spoke {α : Type} {m : Act (Server E S) Err α}
    (hm : Act.Moves (Server.Spoke C K) m) : Act.Moves (Node.Spoke C K) (Node.onServer m) :=
  fun n => ⟨(hm n.toServer).1, rfl, rfl, (hm n.toServer).2⟩

/-- A message that goes out by the first transport. -/
theorem Node.sent_spoke (dst : NetAddr) {payload : List (Gob.Frame Message)}
    (hpayload : K.Carried C payload) :
    Act.Moves (Node.Spoke C K) (Act.modify fun n => { n with sent := n.sent ++ [⟨dst, payload⟩] } :
      Act (Node E S) Err Unit) := by
  refine fun n => ⟨rfl, rfl, rfl, fun env hmem => ?_⟩
  rcases List.mem_append.mp hmem with hold | hnew
  · exact Or.inl hold
  · rw [List.mem_singleton.mp hnew]
    exact Or.inr hpayload

theorem Node.handleGetPeers_spoke (moment : Moment) (sender : NetAddr) :
    Act.Moves (Node.Spoke C K) (Node.handleGetPeers C moment sender : Act (Node E S) Err Unit) :=
  Act.Moves.get.bind fun n => (Act.Moves.lift _).bind fun data => (Act.Moves.lift _).bind fun _ =>
    (Act.Moves.lift _).bind fun _ =>
      Node.sent_spoke sender (Marking.carried_plain .sharePeers trivial data n.gobId)

theorem Node.sendGetPeers_spoke (dst : NetAddr) :
    Act.Moves (Node.Spoke C K) (Node.sendGetPeers dst : Act (Node E S) Err Unit) :=
  Act.Moves.get.bind fun n => (Act.Moves.lift _).bind fun _ => (Act.Moves.lift _).bind fun _ =>
    Node.sent_spoke dst (Marking.carried_plain .getPeers trivial [] n.gobId)

theorem Node.handleSharePeers_spoke (peers : List NetAddr) :
    Act.Moves (Node.Spoke C K) (Node.handleSharePeers peers : Act (Node E S) Err Unit) := by
  refine Act.Moves.forEach fun addr _ => Act.Moves.get.bind fun n => ?_
  split
  · exact Act.Moves.pure _
  · refine (Act.Moves.lift _).bind fun tr => ?_
    show Act.Moves _ (if addr ≠ tr.1 then _ else _)
    split
    · exact fun _ => ⟨rfl, rfl, rfl, fun _ => Or.inl⟩
    · exact Act.Moves.pure _

theorem Node.Marked.spoke {P : Primitives} [Storage P S] {n n' : Node E S} (hn : n.Marked P C K)
    (h : n.Spoke C K n') : n'.Marked P C K := by
  refine ⟨?_, ?_, ?_, ?_, fun env hmem => ?_⟩
  · rw [h.chain]
    exact hn.stored
  · rw [h.memPool]
    exact hn.pending
  · rw [h.memPool]
    exact hn.all
  · rw [h.launched]
    exact hn.launched
  · rcases h.sent env hmem with hold | hnew
    · exact hn.sent env hold
    · exact hnew

end Sending

/-! ### Transactions -/

namespace TxPool

variable {P : Primitives}

/-- Nothing but the transaction has come into the pool. -/
def TookIn (P : Primitives) (tx : Transaction) (p p' : TxPool) : Prop :=
  (∀ tx' ∈ p'.pending.txx, tx' ∈ p.pending.txx ∨ tx' = tx.cacheHash P) ∧
    ∀ tx' ∈ p'.all.txx, tx' ∈ p.all.txx ∨ tx' = tx.cacheHash P

theorem TookIn.refl (tx : Transaction) (p : TxPool) : TookIn P tx p p :=
  ⟨fun _ => Or.inl, fun _ => Or.inl⟩

theorem mem_txx_remove {t : TxSortedMap} {h : Hash} {tx : Transaction}
    (hmem : tx ∈ (t.remove h).txx) : tx ∈ t.txx := by
  cases hlookup : t.lookup.lookup h with
  | none => rwa [TxSortedMap.txx_remove_of_none hlookup] at hmem
  | some tx' =>
    rw [TxSortedMap.txx_remove_of_some hlookup] at hmem
    exact List.mem_of_mem_erase hmem

theorem addStage_tookIn (tx : Transaction) (stage : AddStage) :
    Act.Moves (TookIn P tx) (addStage P tx stage) := by
  intro p
  cases stage with
  | count => exact .refl tx p
  | first =>
    show TookIn P tx p ((Act.lift (p.oldestHash P) >>= _ : Act TxPool Err AddStage) p).2
    cases p.oldestHash P <;> exact .refl tx p
  | remove h => exact ⟨fun _ => Or.inl, fun _ hmem => Or.inl (mem_txx_remove hmem)⟩
  | contains => exact .refl tx p
  | addAll => exact ⟨fun _ => Or.inl, fun _ => TxSortedMap.mem_txx_add⟩
  | addPending => exact ⟨fun _ => TxSortedMap.mem_txx_add, fun _ => Or.inl⟩
  | done => exact .refl tx p

end TxPool

section Calls

variable {P : Primitives} [Storage P S] {C : Codecs} {K : Marking}

theorem Node.Marked.launch {n : Node E S} (hn : n.Marked P C K) {m : Broadcast}
    (hm : m.Marked K) : Node.Marked P C K { n with launched := n.launched ++ [m] } := by
  refine ⟨hn.stored, hn.pending, hn.all, fun m' hmem => ?_, hn.sent⟩
  rcases List.mem_append.mp hmem with hold | hnew
  · exact hn.launched m' hold
  · rw [List.mem_singleton.mp hnew]
    exact hm

theorem Node.Marked.tookIn {n : Node E S} {p : TxPool} {tx : Transaction} (hn : n.Marked P C K)
    (htx : K.transaction tx) (hp : n.memPool.TookIn P tx p) :
    Node.Marked P C K { n with memPool := p } := by
  have hsame : (tx.cacheHash P).exported = tx.exported := rfl
  have hcached : K.transaction (tx.cacheHash P) := K.transaction_congr hsame htx
  refine ⟨hn.stored, fun tx' hmem => ?_, fun tx' hmem => ?_, hn.launched, hn.sent⟩
  · rcases hp.1 tx' hmem with hold | rfl
    · exact hn.pending tx' hold
    · exact hcached
  · rcases hp.2 tx' hmem with hold | rfl
    · exact hn.all tx' hold
    · exact hcached

/-- A step of `ProcessTransaction` on a marked transaction. -/
theorem Call.step_upholds {c : Call} (hc : K.transaction c.tx) (now : Int64) :
    Act.Upholds (Node.Marked P C K) (fun next => ∀ c', next = some c' → K.transaction c'.tx)
      (c.step P now : Act (Node E S) Err (Option Call)) := by
  obtain ⟨tx, stage⟩ := c
  have hsame : (tx.seenAt P now).exported = tx.exported := rfl
  have hseen : K.transaction (tx.seenAt P now) := K.transaction_congr hsame hc
  cases stage with
  | lookup =>
    refine Act.Upholds.get.bind fun n _ => Act.Upholds.pure fun c' hc' => ?_
    split at hc'
    · exact nomatch hc'
    · rw [← Option.some.inj hc']
      exact hc
  | verify =>
    refine Act.Upholds.bind (Q := fun _ => True) (Act.Upholds.lift fun _ _ => trivial) fun _ _ => ?_
    refine Act.Upholds.bind (Act.Upholds.modify fun n hn => hn.launch hseen) fun _ _ => ?_
    refine Act.Upholds.pure fun c' hc' => ?_
    rw [← Option.some.inj hc']
    exact hseen
  | add stage =>
    have hpool : Act.Upholds (Node.Marked P C K) (fun _ => True)
        (Node.onPool (TxPool.addStage P tx stage) : Act (Node E S) Err TxPool.AddStage) :=
      fun n hn => ⟨hn.tookIn hc (TxPool.addStage_tookIn tx stage n.memPool), fun _ _ => trivial⟩
    refine hpool.bind fun next _ => Act.Upholds.pure fun c' hc' => ?_
    obtain ⟨rfl, -⟩ := Call.adding_eq_some hc'
    exact hc

end Calls

/-! ### Blocks -/

section Blocks

variable {P : Primitives} [ConsensusEngine P E] [Storage P S] [FaithfulStorage P S] {C : Codecs}
  {K : Marking}

/-- What `AddBlock` brings into the store is the block, if it is accepted. -/
theorem Blockchain.Called.stored {bc bc' : Blockchain E S} {b b' : Block} {o : Outcome Err Unit}
    {i : UInt32} (hcall : Called P bc b o bc') (hget : bc'.getBlock P i = .ok b') :
    bc.getBlock P i = .ok b' ∨ o = .ok () ∧ b'.exported = b.exported := by
  obtain ⟨fuel, hadd⟩ := hcall
  cases AddStep.of_call hadd with
  | invalid _ _ => exact Or.inl hget
  | aborted _ _ _ => exact Or.inl hget
  | crashed _ _ _ => exact Or.inl hget
  | @appended c' h ws total o s valid _ _ put =>
    change Storage.get P s i = .ok b' at hget
    have hok := LawfulStorage.put_ok (P := P) bc.store valid.header
    have hs : s = (Storage.put P b bc.store).2 := by rw [put]
    rw [put] at hok
    rw [hs] at hget
    by_cases hi : i = h.height
    · subst hi
      exact Or.inr ⟨hok, FaithfulStorage.exported_put_self bc.store valid.header hget⟩
    · rw [LawfulStorage.get_put_of_ne bc.store valid.header hi] at hget
      exact Or.inl hget

/-- `AddBlock` keeps the marking, if what it accepts is marked. -/
theorem Node.Marked.addBlock {n : Node E S} {bc : Blockchain E S} {b : Block} {o : Outcome Err Unit}
    (hn : n.Marked P C K) (hcall : Blockchain.Called P n.chain b o bc)
    (hb : o = .ok () → K.block b) : Node.Marked P C K { n with chain := bc } := by
  refine ⟨fun i b' hget => ?_, hn.pending, hn.all, hn.launched, hn.sent⟩
  rcases hcall.stored hget with hold | ⟨hok, hexp⟩
  · exact hn.stored i b' hold
  · exact K.block_congr hexp (hb hok)

theorem Node.addBlock_upholds {b : Block} (hb : K.block b) (fuel : ℕ) :
    Act.Upholds (Node.Marked P C K) (fun _ => True)
      (Node.onChain (Blockchain.addBlock P fuel b) : Act (Node E S) Err Unit) :=
  fun _ hn => ⟨hn.addBlock ⟨fuel, rfl⟩ fun _ => hb, fun _ _ => trivial⟩

/-- A step of the loop on what is marked. -/
theorem Handler.step_upholds (hC : C.Faithful) {h : Handler} (hh : h.Marked K) (fuel : ℕ)
    (now : Int64) :
    Act.Upholds (Node.Marked P C K) (Handler.Marked K)
      (h.step P C fuel now : Act (Node E S) Err Handler) := by
  have hspoke : ∀ {α : Type} {m : Act (Node E S) Err α}, Act.Moves (Node.Spoke C K) m →
      Act.Upholds (Node.Marked P C K) (fun _ => True) m :=
    fun hm => Act.Upholds.of_moves hm fun _ _ hspoke hn => hn.spoke hspoke
  cases h with
  | idle => exact Act.Upholds.pure trivial
  | submitting c =>
    refine (Call.step_upholds hh now).bind fun next hnext => Act.Upholds.pure ?_
    cases next with
    | none => trivial
    | some c' => exact hnext c' rfl
  | adding sender b =>
    exact (Node.addBlock_upholds hh fuel).attempt.bind fun _ _ => Act.Upholds.pure hh
  | added sender b result =>
    cases result with
    | ok _ =>
      exact (Act.Upholds.modify fun n hn => hn.launch hh).bind fun _ _ => Act.Upholds.pure trivial
    | error e =>
      show Act.Upholds _ _ (if _ then _ else if _ then _ else _)
      split
      · exact Act.Upholds.pure trivial
      · split
        · exact Act.Upholds.pure trivial
        · exact Act.Upholds.lift fun _ hr => nomatch hr
  | asking sender last =>
    refine Act.Upholds.get.bind fun n _ => ?_
    exact (hspoke (Node.onServer_spoke (Server.sendGetBlocks_spoke sender _))).bind
      fun _ _ => Act.Upholds.pure trivial
  | bounding sender first =>
    refine Act.Upholds.get.bind fun n _ => Act.Upholds.pure fun b hb => ?_
    exact absurd hb List.not_mem_nil
  | collecting sender i last blocks =>
    refine Act.Upholds.get.bind fun n hn => ?_
    split
    · -- the block comes from the store, which is marked
      refine (Act.Upholds.lift (Q := K.block) fun b hb => hn.stored i b hb).bind fun b hb =>
        Act.Upholds.pure fun b' hb' => ?_
      rcases List.mem_append.mp hb' with hold | hnew
      · exact hh b' hold
      · rw [List.mem_singleton.mp hnew]
        exact hb
    · refine (Act.Upholds.lift (Q := fun data => C.blocks.encode ⟨blocks⟩ = .ok data)
        fun _ => id).bind fun data hdata => ?_
      have hcarried : ∀ id, K.Carried C ((newMessage .blocks data).bytes id) :=
        Marking.carried_blocks hC hdata hh
      exact (hspoke (Node.onServer_spoke (Server.send_spoke sender hcarried))).bind
        fun _ _ => Act.Upholds.pure trivial
  | batch rest =>
    cases rest with
    | nil => exact Act.Upholds.pure trivial
    | cons b rest =>
      have hb : K.block b := hh b List.mem_cons_self
      refine (Node.addBlock_upholds hb fuel).bind fun _ _ => Act.Upholds.pure fun b' hb' => ?_
      exact hh b' (List.mem_cons_of_mem b hb')

omit [ConsensusEngine P E] [FaithfulStorage P S] in
/-- The first step, on a message that is marked. -/
theorem Handler.start_upholds {msg : DecodedMessage} (hmsg : msg.data.Marked K) (moment : Moment) :
    Act.Upholds (Node.Marked P C K) (Handler.Marked K)
      (Handler.start C moment msg : Act (Node E S) Err Handler) := by
  have hspoke : ∀ {m : Act (Node E S) Err Unit}, Act.Moves (Node.Spoke C K) m →
      Act.Upholds (Node.Marked P C K) (Handler.Marked K) (m >>= fun _ => pure .idle) :=
    fun hm => (Act.Upholds.of_moves hm fun _ _ hspoke hn => hn.spoke hspoke).bind
      fun _ _ => Act.Upholds.pure trivial
  obtain ⟨sender, data⟩ := msg
  cases data with
  | transaction tx => exact Act.Upholds.pure hmsg
  | block b => exact Act.Upholds.pure hmsg
  | getBlocks req =>
    refine Act.Upholds.get.bind fun n _ => Act.Upholds.pure ?_
    split
    · trivial
    · exact fun b hb => absurd hb List.not_mem_nil
  | blocks received => exact Act.Upholds.pure hmsg
  | status st =>
    refine Act.Upholds.get.bind fun n _ => Act.Upholds.pure ?_
    split <;> trivial
  | getStatus => exact hspoke (Node.onServer_spoke (Server.processGetStatusMessage_spoke sender))
  | getPeers => exact hspoke (Node.handleGetPeers_spoke moment sender)
  | sharePeers peers => exact hspoke (Node.handleSharePeers_spoke peers)

variable [SealingEngine P E]

/-- A step of `createNewBlock`. The block has to be marked when the chain has taken it. -/
theorem Production.Marked.step {p : Production} {fuel : ℕ} {key : PrivateKey} {tick : Tick}
    {o : Outcome Err Production} {n n' : Node E S} (hp : p.Marked K) (hn : n.Marked P C K)
    (hcall : p.step P fuel key tick n = (o, n'))
    (hown : ∀ b, p = .signed b → Blockchain.Called P n.chain b (.ok ()) n'.chain → K.block b) :
    n'.Marked P C K ∧ ∀ p', o = .ok p' → p'.Marked K := by
  have of_upholds : Act.Upholds (Node.Marked P C K) (Production.Marked K)
      (p.step P fuel key tick : Act (Node E S) Err Production) →
        n'.Marked P C K ∧ ∀ p', o = .ok p' → p'.Marked K := by
    intro hup
    have hstep := hup n hn
    rwa [hcall] at hstep
  cases p with
  | idle =>
    refine of_upholds (Act.Upholds.get.bind fun _ _ => ?_)
    exact (Act.Upholds.lift (Q := fun _ => True) fun _ _ => trivial).bind
      fun _ _ => Act.Upholds.pure trivial
  | headerRead h =>
    exact of_upholds (Act.Upholds.get.bind fun n hn => Act.Upholds.pure hn.pending)
  | pendingRead h txx =>
    refine of_upholds (Act.Upholds.get.bind fun n _ => ?_)
    refine (Act.Upholds.lift (Q := fun b => b.transactions = txx) fun b hb => ?_).bind
      fun b hb => Act.Upholds.pure ?_
    · exact Blockchain.buildBlock_transactions hb
    · show ∀ tx ∈ b.transactions, K.transaction tx
      rw [hb]
      exact hp
  | signed b =>
    rcases hadd : Blockchain.addBlock P fuel b n.chain with ⟨r, bc⟩
    have hon := Node.onChain_apply hadd
    by_cases hr : r = .ok ()
    · subst hr
      rw [Production.step, Act.bind_apply_ok hon] at hcall
      obtain ⟨rfl, rfl⟩ := Prod.mk.inj hcall
      have hb : K.block b := hown b rfl ⟨fuel, hadd⟩
      refine ⟨hn.addBlock ⟨fuel, hadd⟩ fun _ => hb, fun p' hp' => ?_⟩
      rw [← Outcome.ok.inj hp']
      exact hb
    · have hsame : (Production.step P fuel key tick (.signed b) n).2 = { n with chain := bc } :=
        Act.bind_snd_stop hon (fun _ => hr) _
      rw [hcall] at hsame
      obtain rfl : n' = { n with chain := bc } := hsame
      refine ⟨hn.addBlock ⟨fuel, hadd⟩ fun hok => absurd hok hr, fun p' hp' => ?_⟩
      subst hp'
      obtain ⟨_, _, hfirst, -⟩ := Act.bind_eq_ok.mp hcall
      exact absurd (Prod.mk.inj (hon.symm.trans hfirst)).1 hr
  | added b =>
    have hclear : ∀ n : Node E S, n.Marked P C K →
        Node.Marked P C K { n with memPool := n.memPool.clearPending } := by
      intro n hn
      exact ⟨hn.stored, fun _ hmem => absurd hmem List.not_mem_nil, hn.all, hn.launched, hn.sent⟩
    refine of_upholds ((Act.Upholds.modify hclear).bind fun _ _ => ?_)
    exact (Act.Upholds.modify fun n hn => hn.launch hp).bind fun _ _ => Act.Upholds.pure trivial

/-! ### A turn -/

omit [ConsensusEngine P E] [Storage P S] [FaithfulStorage P S] [SealingEngine P E] in
theorem Process.calls_update {calls : ℕ → Option Call} {id : ℕ} {next : Option Call}
    (hcalls : ∀ id c, calls id = some c → K.transaction c.tx)
    (hnext : ∀ c, next = some c → K.transaction c.tx) :
    ∀ id' c, Function.update calls id next id' = some c → K.transaction c.tx := by
  intro id' c hc
  by_cases hid : id' = id
  · subst hid
    rw [Function.update_self] at hc
    exact hnext c hc
  · rw [Function.update_of_ne hid] at hc
    exact hcalls id' c hc

/-- **A turn keeps the marking**, if what it gets from outside is marked and, when the chain takes
the node's own block, this block is. -/
theorem Process.Marked.step (hC : C.Faithful) {s s' : Process E S} {t : Turn}
    {o : Outcome Err Unit} (hs : s.Marked P C K) (hstep : Process.Step P C s t o s')
    (hreceived : ∀ moment msg, t = .receive moment msg → msg.data.Marked K)
    (hsubmitted : ∀ id tx, t = .submit id tx → K.transaction tx)
    (hown : ∀ b, s.producer = .signed b → s.node.privateKey.isSome = true →
      Blockchain.Called P s.node.chain b (.ok ()) s'.node.chain → K.block b) :
    s'.Marked P C K := by
  -- of a call that came back, what it goes on with
  have hnext : ∀ {α : Type} {Q : α → Prop} {r : Outcome Err α} {default : α},
      (∀ a, r = .ok a → Q a) → Q default → Q (r.toOption.getD default) := by
    intro α Q r default hQ hdefault
    cases r with
    | ok a => exact hQ a rfl
    | err _ => exact hdefault
    | panic _ => exact hdefault
    | outOfFuel => exact hdefault
  cases hstep with
  | submit _ =>
    refine ⟨hs.node, Process.calls_update hs.calls fun c hc => ?_, hs.producer, hs.handler⟩
    rw [← Option.some.inj hc]
    exact hsubmitted _ _ rfl
  | @advance id now c r n' running call _ =>
    have hup := Call.step_upholds (P := P) (C := C) (hs.calls id c running) now s.node hs.node
    rw [call] at hup
    refine ⟨hup.1, Process.calls_update hs.calls ?_, hs.producer, hs.handler⟩
    cases r with
    | ok next => exact hup.2 next rfl
    | err _ => exact nofun
    | panic _ => exact nofun
    | outOfFuel => exact nofun
  | @produce tick key fuel r n' held call _ =>
    have hheld : s.node.privateKey.isSome = true := by
      rw [held]
      rfl
    obtain ⟨hn', hp'⟩ := hs.producer.step hs.node call fun b hb hcall => hown b hb hheld hcall
    exact ⟨hn', hs.calls, hnext hp' trivial, hs.handler⟩
  | @receive moment msg r n' _ call _ =>
    have hup := Handler.start_upholds (P := P) (C := C) (hreceived moment msg rfl) moment s.node
      hs.node
    rw [call] at hup
    exact ⟨hup.1, hs.calls, hs.producer, hnext hup.2 trivial⟩
  | @handle now fuel r n' call _ =>
    have hup := Handler.step_upholds (P := P) hC hs.handler fuel now s.node hs.node
    rw [call] at hup
    exact ⟨hup.1, hs.calls, hs.producer, hnext hup.2 trivial⟩
  | @greet addr r n' call _ =>
    have hspoke : Act.Moves (Node.Spoke C K)
        (Node.onServer (Server.sendGetStatus addr) : Act (Node E S) Err Unit) :=
      Node.onServer_spoke (Server.send_spoke addr (Marking.carried_plain .getStatus trivial []))
    exact ⟨hs.node.spoke (hspoke.of_call call), hs.calls, hs.producer, hs.handler⟩
  | askPeers call _ =>
    exact ⟨hs.node.spoke ((Node.sendGetPeers_spoke _).of_call call), hs.calls, hs.producer,
      hs.handler⟩
  | meet =>
    exact ⟨⟨hs.node.stored, hs.node.pending, hs.node.all, hs.node.launched, hs.node.sent⟩, hs.calls,
      hs.producer, hs.handler⟩

omit [ConsensusEngine P E] [FaithfulStorage P S] [SealingEngine P E] in
/-- What arrives is marked, if every process is. -/
theorem Arrives.marked {κ : Type} (hC : C.Faithful) {c : κ → Process E S} {k : κ} {t : Turn}
    (harrives : Arrives C c k t) (hc : ∀ k, (c k).Marked P C K) :
    ∀ moment msg, t = .receive moment msg → msg.data.Marked K := by
  rintro moment msg rfl
  obtain ⟨j, sender, payload, hsaid, hdecode⟩ := harrives
  exact (hc j).node.said hC hsaid sender msg hdecode

end Blocks

/-- A broadcast can arrive anywhere. -/
theorem Arrives.of_broadcast {κ : Type} {C : Codecs} {c : κ → Process E S} {j k : κ}
    {m : Broadcast} {t : MessageType} {data : List UInt8} {payload : Payload}
    (hmem : m ∈ (c j).node.launched) (hmessage : m.message C = .ok (newMessage t data))
    (hdecode : C.decode t data = .ok payload) (moment : Moment) (sender : NetAddr) :
    Arrives C c k (.receive moment ⟨sender, payload⟩) := by
  refine ⟨j, sender, _, Or.inr ⟨m, hmem, newMessage t data, hmessage, rfl⟩, ?_⟩
  rw [defaultRPCDecodeFunc_newMessage, hdecode]
  rfl

/-- A new process holds the blocks of its store and nothing else. -/
theorem Process.Marked.of_newServer {P : Primitives} [ConsensusEngine P E] [Storage P S]
    {fuel : ℕ} {opts : Node.ServerOpts E S} {n : Node E S}
    (hnew : Node.newServer P fuel opts = .ok n)
    (hstored : ∀ i b, n.chain.getBlock P i = .ok b → K.block b) :
    (Process.start n).Marked P C K := by
  obtain ⟨bc, hbc, hn⟩ := Outcome.bind_eq_ok.mp hnew
  obtain rfl := Outcome.ok.inj hn
  refine ⟨⟨hstored, ?_, ?_, ?_, ?_⟩, nofun, trivial, trivial⟩
  · exact fun tx hmem => absurd hmem List.not_mem_nil
  · exact fun tx hmem => absurd hmem List.not_mem_nil
  · exact fun m hmem => absurd hmem List.not_mem_nil
  · exact fun env hmem => absurd hmem List.not_mem_nil

end Blockz
