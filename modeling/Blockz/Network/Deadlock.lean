import Blockz.Network.LocalNetwork

/-!
# Servers that wait for each other

`SendMessage` waits while the channel of the peer is full, and while the loop of `Start` waits in it
nothing is taken from its own channel: the goroutine of `initTransports` can hold one message, and
then it waits for the loop. So some servers can come to wait for each other.

* `LocalNet.Deadlocked` — the loop of each of the servers is in a call to another one of them, and
  all their channels are full.
* `deadlock_stays` — from there on no event touches the channels and the loops of these servers. A
  server that makes no blocks has the same chain for ever.
* `flood_deadlocks` — two servers whose loops are answering each other can be brought there from
  outside: one transaction, submitted over and over, fills the channels.
-/

namespace Blockz

open Effect

namespace LocalNet

variable {κ E S : Type} [DecidableEq κ] {net net' : LocalNet κ E S}

/-- The loop of `k` is in a call of `SendMessage` to `j`. -/
def Answers (net : LocalNet κ E S) (k j : κ) : Prop :=
  ∃ env rest, (net.nodes k).outgoing = env :: rest ∧
    (net.transports k).peers.lookup env.dst = some j

/-- There is no room in the channel, and the goroutine that empties it holds a message. -/
structure Jammed (net : LocalNet κ E S) (k : κ) : Prop where
  full : LocalTransport.bufferSize ≤ (net.transports k).consumeCh.length
  relayed : (net.nodes k).relayed ≠ none

/-- The loops of these servers wait for each other. -/
def Deadlocked (net : LocalNet κ E S) (K : Set κ) : Prop :=
  ∀ k ∈ K, net.Jammed k ∧ ∃ j ∈ K, net.Answers k j

end LocalNet

/-! ### What stays -/

/-- Goroutine and loop of a server are as before, and so is the chain if the server makes no
blocks. -/
structure LocalNode.Frozen {κ E S : Type} (n n' : LocalNode κ E S) : Prop where
  relayed : n'.relayed = n.relayed
  received : n'.received = n.received
  outgoing : n'.outgoing = n.outgoing
  handler : n'.handler = n.handler
  privateKey : n'.node.privateKey = n.node.privateKey
  chain : n.node.privateKey = none → n'.node.chain = n.node.chain

namespace LocalNode.Frozen

variable {κ E S : Type} {n n' n'' : LocalNode κ E S}

theorem refl (n : LocalNode κ E S) : n.Frozen n := ⟨rfl, rfl, rfl, rfl, rfl, fun _ => rfl⟩

theorem trans (h₁ : n.Frozen n') (h₂ : n'.Frozen n'') : n.Frozen n'' where
  relayed := h₂.relayed.trans h₁.relayed
  received := h₂.received.trans h₁.received
  outgoing := h₂.outgoing.trans h₁.outgoing
  handler := h₂.handler.trans h₁.handler
  privateKey := h₂.privateKey.trans h₁.privateKey
  chain hnone := (h₂.chain (h₁.privateKey.trans hnone)).trans (h₁.chain hnone)

variable {P : Primitives} [ConsensusEngine P E] [SealingEngine P E] [Storage P S] {C : Codecs}

/-- The JSON-RPC server and the validator loop go on. -/
theorem turned {t : Turn} {o : Outcome Err Unit} {s : Process E S} (haside : t.Aside)
    (hcall : Process.Step P C n.toProcess t o s) : n.Frozen (n.turned s) := by
  have hadds := hcall.adds
  refine ⟨rfl, rfl, rfl, ?_, hadds.privateKey, fun hnone => ?_⟩
  · cases hcall with
    | submit _ => rfl
    | advance _ _ _ => rfl
    | produce _ _ _ => rfl
    | _ => exact haside.elim
  · -- without a key no block is at hand
    rcases hadds.chain with hsame | ⟨b, -, hhand, -⟩
    · exact hsame
    · rcases hhand with ⟨now, rfl, -⟩ | ⟨tick, -, -, hkey⟩
      · exact haside.elim
      · rw [hnone] at hkey
        exact absurd hkey Bool.false_ne_true

end LocalNode.Frozen

/-- A call on a full channel does not come back. -/
theorem LocalTransport.sendMessage_full {κ : Type} [DecidableEq κ] {ts : κ → LocalTransport κ}
    {k j : κ} {dst : NetAddr} (hpeer : (ts k).peers.lookup dst = some j)
    (hfull : bufferSize ≤ (ts j).consumeCh.length) (payload : List (Gob.Frame Message)) :
    sendMessage k dst payload ts = (.outOfFuel, ts) := by
  unfold sendMessage
  rw [hpeer]
  exact if_neg (Nat.not_lt_of_le hfull)

namespace LocalNet

variable {κ E S : Type} [DecidableEq κ] {net net' : LocalNet κ E S} {P : Primitives}
  [ConsensusEngine P E] [SealingEngine P E] [Storage P S] {C : Codecs} {K : Set κ}

/-- What has come back did not go to a channel that is full. -/
theorem Deadlocked.not_mem_of_addressed (hdead : net.Deadlocked K) {k : κ} {dst : NetAddr}
    {payload : List (Gob.Frame Message)} {o : Outcome Err Unit} {ts : κ → LocalTransport κ}
    (hcall : LocalTransport.sendMessage k dst payload net.transports = (o, ts))
    (hreturns : o.Returns) {x : κ × RPC}
    (hx : x ∈ LocalTransport.addressed net.transports k dst payload) : x.1 ∉ K := by
  intro hmem
  obtain ⟨j, hj, rfl⟩ := List.mem_map.mp hx
  have hpeer : (net.transports k).peers.lookup dst = some j := Option.mem_toList.mp hj
  rw [LocalTransport.sendMessage_full hpeer (hdead j hmem).1.full] at hcall
  rw [← (Prod.mk.inj hcall).1] at hreturns
  exact hreturns.elim

omit [DecidableEq κ] in
/-- The loops of these servers are not at rest. -/
theorem Deadlocked.outgoing_ne_nil (hdead : net.Deadlocked K) {k : κ} (hk : k ∈ K) :
    (net.nodes k).outgoing ≠ [] := by
  obtain ⟨-, j, -, env, rest, hwaiting, -⟩ := hdead k hk
  rw [hwaiting]
  exact List.cons_ne_nil _ _

/-- The loops of these servers are in calls that do not come back. -/
theorem Deadlocked.not_mail (hdead : net.Deadlocked K) {k : κ} (hk : k ∈ K) {env : Envelope}
    {rest : List Envelope} {o : Outcome Err Unit} {ts : κ → LocalTransport κ}
    (hwaiting : (net.nodes k).outgoing = env :: rest)
    (hcall : LocalTransport.sendMessage k env.dst env.payload net.transports = (o, ts))
    (hreturns : o.Returns) : False := by
  obtain ⟨-, j, hj, env', rest', hwaiting', hpeer⟩ := hdead k hk
  obtain ⟨rfl, -⟩ := List.cons.inj (hwaiting.symm.trans hwaiting')
  rw [LocalTransport.sendMessage_full hpeer (hdead j hj).1.full] at hcall
  rw [← (Prod.mk.inj hcall).1] at hreturns
  exact hreturns.elim

variable {e : LocalEvent κ} {tr : Traffic κ}

/-- **One event among servers that wait.** It puts nothing into their channels, takes nothing up
and leaves their loops where they are. -/
theorem Step.frozen (hstep : Step P C net e tr net') (hdead : net.Deadlocked K) :
    (∀ x ∈ tr.put ++ tr.taken, x.1 ∉ K) ∧ ∀ k ∈ K, (net.nodes k).Frozen (net'.nodes k) ∧
      (net'.transports k).consumeCh = (net.transports k).consumeCh := by
  have hone : ∀ {ts : κ → LocalTransport κ} {k' : κ} {n : LocalNode κ E S},
      (k' ∈ K → (net.nodes k').Frozen n) →
      (∀ k ∈ K, (ts k).consumeCh = (net.transports k).consumeCh) →
      ∀ k ∈ K, (net.nodes k).Frozen (((net.withTransports ts).withNode k' n).nodes k) ∧
        (ts k).consumeCh = (net.transports k).consumeCh := by
    intro ts k' n hn hchannels k hk
    refine ⟨?_, hchannels k hk⟩
    by_cases heq : k = k'
    · subst heq
      rw [withNode_self]
      exact hn hk
    · rw [withNode_of_ne n heq]
      exact .refl _
  have hposted : ∀ {put : List (κ × RPC)} {ts : κ → LocalTransport κ},
      LocalTransport.Posted put net.transports ts → (∀ x ∈ put, x.1 ∉ K) →
      ∀ k ∈ K, (ts k).consumeCh = (net.transports k).consumeCh := by
    intro put ts h hput k hk
    have hnone : part k put = [] := by
      refine List.eq_nil_iff_forall_not_mem.mpr fun rpc hrpc => ?_
      exact hput (k, rpc) (mem_part.mp hrpc) hk
    rw [h.consumeCh k, hnone, List.append_nil]
  have hnothing : ∀ x ∈ ([] ++ [] : List (κ × RPC)), x.1 ∉ K := fun x hx => nomatch hx
  cases hstep with
  | work aside call =>
    exact ⟨hnothing, hone (fun _ => .turned aside call) fun _ _ => rfl⟩
  | handle free _ =>
    exact ⟨hnothing, hone (fun hk => absurd free (hdead.outgoing_ne_nil hk)) fun _ _ => rfl⟩
  | @accept k' _ _ _ _ _ _ free _ _ _ =>
    refine ⟨fun x hx hmem => ?_, hone (fun hk => absurd free (hdead.outgoing_ne_nil hk))
      fun _ _ => rfl⟩
    obtain rfl := List.mem_singleton.mp hx
    exact hdead.outgoing_ne_nil hmem free
  | mail waiting call returns =>
    have hput := fun x hx => hdead.not_mem_of_addressed (x := x) call returns hx
    refine ⟨fun x hx => hput x ?_, hone (fun hk => ?_)
      (hposted (LocalTransport.posted_of_sendMessage call returns) hput)⟩
    · rwa [List.append_nil] at hx
    · exact (hdead.not_mail hk waiting call returns).elim
  | encode _ _ _ =>
    exact ⟨hnothing, hone (fun _ => ⟨rfl, rfl, rfl, rfl, rfl, fun _ => rfl⟩) fun _ _ => rfl⟩
  | spread _ call returns =>
    have hput := fun x hx => hdead.not_mem_of_addressed (x := x) call returns hx
    refine ⟨fun x hx => hput x ?_, hone (fun _ => ⟨rfl, rfl, rfl, rfl, rfl, fun _ => rfl⟩)
      (hposted (LocalTransport.posted_of_sendMessage call returns) hput)⟩
    rwa [List.append_nil] at hx
  | @relay k' _ _ _ free =>
    refine ⟨hnothing, hone (fun hk => absurd free (hdead k' hk).1.relayed) fun k hk => ?_⟩
    have hne : k ≠ k' := by
      rintro rfl
      exact (hdead k hk).1.relayed free
    rw [Function.update_of_ne hne]
  | hand _ _ _ free =>
    exact ⟨hnothing, hone (fun hk => absurd free (hdead.outgoing_ne_nil hk)) fun _ _ => rfl⟩

omit [DecidableEq κ] in
/-- Servers that wait for each other go on doing so. -/
theorem Deadlocked.congr (hdead : net.Deadlocked K)
    (hlinks : LocalTransport.SameLinks net.transports net'.transports)
    (hfrozen : ∀ k ∈ K, (net.nodes k).Frozen (net'.nodes k) ∧
      (net'.transports k).consumeCh = (net.transports k).consumeCh) : net'.Deadlocked K := by
  intro k hk
  obtain ⟨hjammed, j, hj, env, rest, hwaiting, hpeer⟩ := hdead k hk
  obtain ⟨hnode, hchannel⟩ := hfrozen k hk
  refine ⟨⟨?_, ?_⟩, j, hj, env, rest, ?_, ?_⟩
  · rw [hchannel]
    exact hjammed.full
  · rw [hnode.relayed]
    exact hjammed.relayed
  · rw [hnode.outgoing]
    exact hwaiting
  · rw [(hlinks k).2]
    exact hpeer

/-- **A deadlock is for ever.** Whatever happens afterwards, nothing is put into the channels of
these servers and their loops take up nothing: each is still in the same call. A server without a
key has the same chain for ever. -/
theorem deadlock_stays {es : List (LocalEvent κ × Traffic κ)} (hdead : net.Deadlocked K)
    (hrun : History (Step P C) net es net') :
    net'.Deadlocked K ∧ (∀ e ∈ es, ∀ x ∈ e.2.put ++ e.2.taken, x.1 ∉ K) ∧
      ∀ k ∈ K, (net'.nodes k).outgoing = (net.nodes k).outgoing ∧
        (net'.nodes k).handler = (net.nodes k).handler ∧ net'.inFlight k = net.inFlight k ∧
        ((net.nodes k).node.privateKey = none →
          (net'.nodes k).node.chain = (net.nodes k).node.chain) := by
  have hall : net'.Deadlocked K ∧ (∀ e ∈ es, ∀ x ∈ e.2.put ++ e.2.taken, x.1 ∉ K) ∧
      ∀ k ∈ K, (net.nodes k).Frozen (net'.nodes k) ∧
        (net'.transports k).consumeCh = (net.transports k).consumeCh := by
    refine hrun.recorded (fun es net' => net'.Deadlocked K ∧
      (∀ e ∈ es, ∀ x ∈ e.2.put ++ e.2.taken, x.1 ∉ K) ∧
      ∀ k ∈ K, (net.nodes k).Frozen (net'.nodes k) ∧
        (net'.transports k).consumeCh = (net.transports k).consumeCh)
      ⟨hdead, fun _ he => absurd he List.not_mem_nil, fun _ _ => ⟨.refl _, rfl⟩⟩ ?_
    rintro es mid i o next - ⟨hmid, huntouched, hfrozen⟩ hstep
    obtain ⟨hlast, hnext⟩ := hstep.frozen hmid
    refine ⟨hmid.congr hstep.sameLinks hnext, fun e he => ?_, fun k hk => ?_⟩
    · rcases List.mem_append.mp he with hold | hnew
      · exact huntouched e hold
      · rw [List.mem_singleton.mp hnew]
        exact hlast
    · exact ⟨(hfrozen k hk).1.trans (hnext k hk).1, (hnext k hk).2.trans (hfrozen k hk).2⟩
  refine ⟨hall.1, hall.2.1, fun k hk => ?_⟩
  obtain ⟨hnode, hchannel⟩ := hall.2.2 k hk
  refine ⟨hnode.outgoing, hnode.handler, ?_, hnode.chain⟩
  unfold inFlight
  rw [hnode.received, hnode.relayed, hchannel]

/-! ### Two servers -/

/-- Two transports that are connected to each other. -/
def crossTransports : Bool → LocalTransport Bool :=
  LocalTransport.mesh (fun k => if k then "A" else "B") [(true, false), (false, true)]

theorem lookup_crossTransports (k : Bool) :
    (crossTransports k).peers.lookup (crossTransports !k).addr = some !k := by
  unfold crossTransports LocalTransport.mesh LocalTransport.connect
  cases k <;> simp [LocalTransport.newLocalTransport, Function.update]

/-- Two servers whose loops are sending to each other. -/
def crossNet (channel : List RPC) (relayed : Option RPC) : LocalNet Bool PoWEngine MemoryStore where
  transports k := { crossTransports k with consumeCh := channel }
  nodes k :=
    { (.start Node.sampleNode : LocalNode Bool PoWEngine MemoryStore) with
      relayed := relayed
      outgoing := [⟨(crossTransports !k).addr, []⟩] }

theorem answers_crossNet (channel : List RPC) (relayed : Option RPC) (k : Bool) :
    (crossNet channel relayed).Answers k !k :=
  ⟨_, [], rfl, lookup_crossTransports k⟩

/-- The theorem when a transfer is submitted to one of them. -/
theorem deadlock_stays_cross : ∃ (rpc : RPC) (es : List (LocalEvent Bool × Traffic Bool))
    (net' : LocalNet Bool PoWEngine MemoryStore),
    History (Step .sample oneTransfer) (crossNet (List.replicate 1024 rpc) (some rpc)) es net' ∧
      es ≠ [] ∧ net'.Deadlocked Set.univ := by
  have hdead : (crossNet (List.replicate 1024 ⟨"A", []⟩) (some ⟨"A", []⟩)).Deadlocked
      Set.univ := by
    refine fun k _ => ⟨⟨?_, nofun⟩, !k, trivial, answers_crossNet _ _ k⟩
    exact (List.length_replicate).ge
  have hstep := Step.work (P := .sample) (C := oneTransfer) (k := true)
    (t := .submit 0 (sampleTransfer 0 0)) trivial
    (.submit (s := (crossNet (List.replicate 1024 ⟨"A", []⟩) (some ⟨"A", []⟩)).processes true) rfl)
  have hrun := History.start.call hstep
  exact ⟨⟨"A", []⟩, _, _, hrun, List.cons_ne_nil _ _, (deadlock_stays hdead hrun).1⟩

/-! ### A flood from outside -/

/-- There are numbers for further calls of `ProcessTransaction`. -/
def Roomy (n : LocalNode κ E S) : Prop := ∃ N, ∀ id, N ≤ id → n.calls id = none

/-- The events of a flood of `tgt` by way of `src`: `tx` is submitted to `src`, the call takes
steps, its broadcast is sent, and what arrives at `tgt` is taken from the channel. -/
inductive Flooding (tx : Transaction) (now : Int64) (src tgt : κ) : LocalEvent κ → Prop
  | submit (id : ℕ) : Flooding tx now src tgt (.work src (.submit id tx))
  | advance (id : ℕ) : Flooding tx now src tgt (.work src (.advance id now))
  | encode (i : ℕ) (order : List NetAddr) : Flooding tx now src tgt (.encode src i order)
  | spread (i : ℕ) : Flooding tx now src tgt (.spread src i)
  | relay : Flooding tx now src tgt (.relay tgt)

/-- What a flood of messages to `tgt` leaves alone. The calls that have come up stand at `stopped`.
-/
structure Flooded (stopped : Call) (tgt : κ) (net net' : LocalNet κ E S) : Prop where
  links : LocalTransport.SameLinks net.transports net'.transports
  outgoing : ∀ i, (net'.nodes i).outgoing = (net.nodes i).outgoing
  memPool : ∀ i, (net'.nodes i).node.memPool = (net.nodes i).node.memPool
  calls : ∀ i id, (net'.nodes i).calls id = (net.nodes i).calls id ∨
    (net'.nodes i).calls id = some stopped
  roomy : ∀ i, Roomy (net.nodes i) → Roomy (net'.nodes i)
  relayed : ∀ i, i ≠ tgt → (net'.nodes i).relayed = (net.nodes i).relayed
  channels : ∀ i, i ≠ tgt → (net'.transports i).consumeCh = (net.transports i).consumeCh

variable {tgt src : κ} {stopped : Call}

/-- The transaction is one that `src` would broadcast to `tgt`. -/
structure Admits (P : Primitives) (tx : Transaction) (src tgt : κ) (net : LocalNet κ E S) :
    Prop where
  peer : (net.transports src).peers.lookup (net.transports tgt).addr = some tgt
  roomy : Roomy (net.nodes src)
  absent : ¬ (net.nodes src).node.memPool.contains (tx.hash P)

omit [DecidableEq κ] in
theorem Admits.flooded {P : Primitives} {tx : Transaction} {i j k : κ} (h : Admits P tx j k net)
    (hflooded : Flooded stopped i net net') : Admits P tx j k net' := by
  refine ⟨?_, hflooded.roomy j h.roomy, ?_⟩
  · rw [(hflooded.links j).2, (hflooded.links k).1]
    exact h.peer
  · rw [hflooded.memPool j]
    exact h.absent

omit [DecidableEq κ] in
theorem Flooded.refl (stopped : Call) (tgt : κ) (net : LocalNet κ E S) :
    Flooded stopped tgt net net :=
  ⟨fun _ => ⟨rfl, rfl⟩, fun _ => rfl, fun _ => rfl, fun _ _ => Or.inl rfl, fun _ => id,
    fun _ _ => rfl, fun _ _ => rfl⟩

omit [DecidableEq κ] in
theorem Flooded.calls_trans {mid : LocalNet κ E S} {i j : κ} (h₁ : Flooded stopped i net mid)
    (h₂ : Flooded stopped j mid net') (k : κ) (id : ℕ) :
    (net'.nodes k).calls id = (net.nodes k).calls id ∨
      (net'.nodes k).calls id = some stopped := by
  rcases h₂.calls k id with hsame | hstopped
  · rw [hsame]
    exact h₁.calls k id
  · exact Or.inr hstopped

omit [DecidableEq κ] in
theorem Flooded.trans {mid : LocalNet κ E S} (h₁ : Flooded stopped tgt net mid)
    (h₂ : Flooded stopped tgt mid net') : Flooded stopped tgt net net' where
  links i := ⟨(h₂.links i).1.trans (h₁.links i).1, (h₂.links i).2.trans (h₁.links i).2⟩
  outgoing i := (h₂.outgoing i).trans (h₁.outgoing i)
  memPool i := (h₂.memPool i).trans (h₁.memPool i)
  calls := h₁.calls_trans h₂
  roomy i hi := h₂.roomy i (h₁.roomy i hi)
  relayed i hi := (h₂.relayed i hi).trans (h₁.relayed i hi)
  channels i hi := (h₂.channels i hi).trans (h₁.channels i hi)

theorem withNode_withNode (k : κ) (n n' : LocalNode κ E S) :
    (net.withNode k n).withNode k n' = net.withNode k n' := by
  unfold withNode
  rw [Function.update_idem]

theorem withTransports_withNode (ts : κ → LocalTransport κ) (k : κ) (n : LocalNode κ E S) :
    (net.withNode k n).withTransports ts = (net.withTransports ts).withNode k n := rfl

theorem work_withNode {n : LocalNode κ E S} {t : Turn} {o : Outcome Err Unit} {s : Process E S}
    (hcall : Process.Step P C n.toProcess t o s) (haside : t.Aside) :
    Step P C (net.withNode src n) (.work src t) { turns := [((src, t), o)] }
      (net.withNode src (n.turned s)) := by
  have hself : (net.withNode src n).nodes src = n := withNode_self src n
  have hstep : Step P C (net.withNode src n) (.work src t) { turns := [((src, t), o)] }
      ((net.withNode src n).withNode src (((net.withNode src n).nodes src).turned s)) := by
    refine .work haside ?_
    rwa [hself]
  rwa [hself, withNode_withNode] at hstep

omit [DecidableEq κ] in
theorem turned_spreading (n : LocalNode κ E S) (s : Process E S) (new : List Broadcast)
    (hlaunched : s.node.launched = n.node.launched ++ new) :
    (n.turned s).spreading = n.spreading ++ new.map Spreading.launched := by
  unfold LocalNode.turned
  rw [hlaunched, List.drop_left]

/-- A transaction is submitted, and its broadcast is launched. The call goes no further, so the pool
does not have it. -/
theorem exists_launch {tx : Transaction} (now : Int64) (hadmits : Admits P tx src tgt net)
    (hverified : tx.verify P = .ok ()) :
    ∃ es n, History (Step P C) net es (net.withNode src n) ∧
      (∀ e ∈ es, Flooding tx now src tgt e.1) ∧
      n.spreading = (net.nodes src).spreading ++ [.launched (.transaction (tx.seenAt P now))] ∧
      n.outgoing = (net.nodes src).outgoing ∧ n.relayed = (net.nodes src).relayed ∧
      n.node.memPool = (net.nodes src).node.memPool ∧
      (∀ id, n.calls id = (net.nodes src).calls id ∨
        n.calls id = some ⟨tx.seenAt P now, .add .count⟩) ∧ Roomy n := by
  obtain ⟨N, hN⟩ := hadmits.roomy
  let n₀ := net.nodes src
  let s₁ : Process E S :=
    { n₀.toProcess with calls := Function.update n₀.calls N (some ⟨tx, .lookup⟩) }
  let s₂ : Process E S := { s₁ with calls := Function.update s₁.calls N (some ⟨tx, .verify⟩) }
  let s₃ : Process E S :=
    { s₂ with
      node := { s₂.node with
        launched := s₂.node.launched ++ [.transaction (tx.seenAt P now)] }
      calls := Function.update s₂.calls N (some ⟨tx.seenAt P now, .add .count⟩) }
  have hsubmit : Process.Step P C n₀.toProcess (.submit N tx) (.ok ()) s₁ := .submit (hN N le_rfl)
  have hlookup : Process.Step P C s₁ (.advance N now) (.ok ()) s₂ := by
    have hcall : Call.step P now ⟨tx, .lookup⟩ s₁.node = (.ok (some ⟨tx, .verify⟩), s₁.node) := by
      show (Outcome.ok (if s₁.node.memPool.contains (tx.hash P) then none else _), _) = _
      rw [if_neg hadmits.absent]
    exact .advance (Function.update_self _ _ _) hcall trivial
  have hverify : Process.Step P C s₂ (.advance N now) (.ok ()) s₃ := by
    have hcall : Call.step P now ⟨tx, .verify⟩ s₂.node =
        (.ok (some ⟨tx.seenAt P now, .add .count⟩), s₃.node) := by
      show (Act.lift (tx.verify P) >>= _) s₂.node = _
      rw [hverified]
      rfl
    exact .advance (Function.update_self _ _ _) hcall trivial
  have hstart : net.withNode src n₀ = net := by
    unfold withNode
    rw [Function.update_eq_self]
  have hrun : History (Step P C) (net.withNode src n₀) _
      (net.withNode src (((n₀.turned s₁).turned s₂).turned s₃)) :=
    .cons (work_withNode hsubmit trivial) (.cons (work_withNode hlookup trivial)
      (.cons (work_withNode hverify trivial) .start))
  rw [hstart] at hrun
  have hcalls : ∀ id, id ≠ N → s₃.calls id = n₀.calls id := by
    intro id hne
    simp only [s₃, s₂, s₁, Function.update_of_ne hne]
  refine ⟨_, _, hrun, ?_, ?_, rfl, rfl, rfl, fun id => ?_, N + 1, fun id hid => ?_⟩
  · simp only [List.forall_mem_cons]
    exact ⟨.submit N, .advance N, .advance N, fun e he => absurd he List.not_mem_nil⟩
  · have h₁ : (n₀.turned s₁).spreading = n₀.spreading ++ [] :=
      turned_spreading n₀ s₁ [] (List.append_nil _).symm
    have h₂ : ((n₀.turned s₁).turned s₂).spreading = (n₀.turned s₁).spreading ++ [] :=
      turned_spreading (n₀.turned s₁) s₂ [] (List.append_nil _).symm
    have h₃ : (((n₀.turned s₁).turned s₂).turned s₃).spreading =
        ((n₀.turned s₁).turned s₂).spreading ++
          [.launched (.transaction (tx.seenAt P now))] :=
      turned_spreading ((n₀.turned s₁).turned s₂) s₃ [.transaction (tx.seenAt P now)] rfl
    rw [h₃, h₂, h₁, List.append_nil, List.append_nil]
  · -- the new call stands before the pool, the others are where they were
    by_cases heq : id = N
    · subst heq
      exact Or.inr (Function.update_self _ _ _)
    · exact Or.inl (hcalls id heq)
  · have hne : id ≠ N := (Nat.lt_of_succ_le hid).ne'
    exact (hcalls id hne).trans (hN id (Nat.le_of_succ_le hid))

/-- One server and one channel have changed. -/
theorem flooded_withNode {k : κ} {n : LocalNode κ E S} {ts : κ → LocalTransport κ}
    (hlinks : LocalTransport.SameLinks net.transports ts)
    (hchannels : ∀ i, i ≠ tgt → (ts i).consumeCh = (net.transports i).consumeCh)
    (houtgoing : n.outgoing = (net.nodes k).outgoing)
    (hmemPool : n.node.memPool = (net.nodes k).node.memPool)
    (hcalls : ∀ id, n.calls id = (net.nodes k).calls id ∨ n.calls id = some stopped)
    (hroomy : Roomy (net.nodes k) → Roomy n)
    (hrelayed : k ≠ tgt → n.relayed = (net.nodes k).relayed) :
    Flooded stopped tgt net ((net.withTransports ts).withNode k n) := by
  let Q : κ → LocalNode κ E S → Prop := fun i n =>
    n.outgoing = (net.nodes i).outgoing ∧ n.node.memPool = (net.nodes i).node.memPool ∧
      (∀ id, n.calls id = (net.nodes i).calls id ∨ n.calls id = some stopped) ∧
      (Roomy (net.nodes i) → Roomy n) ∧ (i ≠ tgt → n.relayed = (net.nodes i).relayed)
  have hall : ∀ i, Q i (((net.withTransports ts).withNode k n).nodes i) :=
    forall_withNode (fun _ => ⟨rfl, rfl, fun _ => Or.inl rfl, id, fun _ => rfl⟩)
      ⟨houtgoing, hmemPool, hcalls, hroomy, hrelayed⟩
  exact ⟨hlinks, fun i => (hall i).1, fun i => (hall i).2.1, fun i => (hall i).2.2.1,
    fun i => (hall i).2.2.2.1, fun i => (hall i).2.2.2.2, hchannels⟩

/-- **One more message.** -/
theorem exists_copy {tx : Transaction} {now : Int64} {data : List UInt8}
    (hadmits : Admits P tx src tgt net)
    (hroom : (net.transports tgt).consumeCh.length < LocalTransport.bufferSize)
    (hverified : tx.verify P = .ok ())
    (hencode : C.transaction.encode (tx.seenAt P now) = .ok data) :
    ∃ es net', History (Step P C) net es net' ∧ (∀ e ∈ es, Flooding tx now src tgt e.1) ∧
      Flooded ⟨tx.seenAt P now, .add .count⟩ tgt net net' ∧
      (net'.nodes tgt).relayed = (net.nodes tgt).relayed ∧
      (net'.transports tgt).consumeCh.length = (net.transports tgt).consumeCh.length + 1 := by
  obtain ⟨es, n, hlaunch, hevents, hspreading, houtgoing, hrelayed, hmemPool, hcalls, hn⟩ :=
    exists_launch (C := C) now hadmits hverified
  have hpeer := hadmits.peer
  let i := (net.nodes src).spreading.length
  let dst := (net.transports tgt).addr
  -- the range over the peers begins with the target
  let order := dst :: ((net.transports src).peers.keys.erase dst).toList
  have hself : (net.withNode src n).nodes src = n := withNode_self src n
  have hstarted : ((net.withNode src n).nodes src).spreading[i]? =
      some (.launched (.transaction (tx.seenAt P now))) := by
    rw [hself, hspreading]
    exact List.getElem?_concat_length
  have honce : order.Nodup := by
    refine List.nodup_cons.mpr ⟨?_, Finset.nodup_toList _⟩
    rw [Finset.mem_toList]
    exact Finset.notMem_erase _ _
  have hall : ∀ addr, addr ∈ order ↔ addr ∈ (net.transports src).peers := by
    intro addr
    have hdst : dst ∈ (net.transports src).peers := Finmap.mem_iff.mpr ⟨tgt, hpeer⟩
    rw [List.mem_cons, Finset.mem_toList, Finset.mem_erase, Finmap.mem_keys]
    by_cases heq : addr = dst
    · rw [heq]
      exact ⟨fun _ => hdst, fun _ => Or.inl rfl⟩
    · exact ⟨fun h => (h.resolve_left heq).2, fun h => Or.inr ⟨heq, h⟩⟩
  have hpeers : order.filterMap (net.transports src).peers.lookup =
      tgt :: ((net.transports src).peers.keys.erase dst).toList.filterMap
        (net.transports src).peers.lookup := by
    rw [List.filterMap_cons, hpeer]
  have hmessage : (Broadcast.transaction (tx.seenAt P now)).message C =
      .ok (newMessage .tx data) := by
    show (C.transaction.encode _ >>= fun data => .ok (newMessage .tx data)) = _
    rw [hencode]
    rfl
  have hencoded := Step.encode (P := P) (C := C) hstarted honce hall
  rw [hself, withNode_withNode, withNode_transports, hpeers, Broadcast.spread, hmessage] at hencoded
  let payload := (newMessage .tx data).bytes n.node.gobId
  let rest := ((net.transports src).peers.keys.erase dst).toList.filterMap
    (net.transports src).peers.lookup
  let n₁ : LocalNode κ E S :=
    { n with spreading := n.spreading.set i (.sending payload (tgt :: rest)) }
  have hwaiting : ((net.withNode src n₁).nodes src).spreading[i]? =
      some (.sending payload (tgt :: rest)) := by
    rw [withNode_self]
    refine List.getElem?_set_self ?_
    rw [hspreading, List.length_append]
    exact Nat.lt_succ_self _
  have hcall : LocalTransport.sendMessage src dst payload net.transports =
      (.ok (), Function.update net.transports tgt
        ((net.transports tgt).push ⟨(net.transports src).addr, payload⟩)) := by
    unfold LocalTransport.sendMessage
    rw [hpeer]
    exact if_pos hroom
  let ts := Function.update net.transports tgt
    ((net.transports tgt).push ⟨(net.transports src).addr, payload⟩)
  let n₂ : LocalNode κ E S :=
    { n₁ with spreading := n₁.spreading.set i (.sending payload rest) }
  have hspread : Step P C (net.withNode src n₁) (.spread src i)
      { put := LocalTransport.addressed net.transports src dst payload }
      ((net.withTransports ts).withNode src n₂) := by
    have hstep : Step P C (net.withNode src n₁) (.spread src i) _ _ :=
      .spread hwaiting hcall trivial
    rwa [withNode_self, if_pos rfl, withTransports_withNode, withNode_withNode] at hstep
  have hposted := LocalTransport.posted_of_sendMessage hcall trivial
  refine ⟨_, _, (hlaunch.call hencoded).call hspread, ?_, ?_, ?_, ?_⟩
  · simp only [List.forall_mem_append, List.forall_mem_singleton]
    exact ⟨⟨hevents, .encode i order⟩, .spread i⟩
  · refine flooded_withNode hposted.links (fun j hj => ?_) houtgoing hmemPool hcalls (fun _ => hn)
      fun _ => hrelayed
    exact congrArg LocalTransport.consumeCh (Function.update_of_ne hj _ _)
  · by_cases heq : tgt = src
    · subst heq
      rw [withNode_self]
      exact hrelayed
    · rw [withNode_of_ne _ heq]
      rfl
  · have htgt : ts tgt = (net.transports tgt).push ⟨(net.transports src).addr, payload⟩ :=
      Function.update_self _ _ _
    show (ts tgt).consumeCh.length = _
    rw [htgt]
    exact List.length_append

/-- Messages as many as there is room for. -/
theorem exists_fill {tx : Transaction} {now : Int64} {data : List UInt8} (count : ℕ)
    (hadmits : Admits P tx src tgt net)
    (hroom : (net.transports tgt).consumeCh.length + count ≤ LocalTransport.bufferSize)
    (hverified : tx.verify P = .ok ())
    (hencode : C.transaction.encode (tx.seenAt P now) = .ok data) :
    ∃ es net', History (Step P C) net es net' ∧ (∀ e ∈ es, Flooding tx now src tgt e.1) ∧
      Flooded ⟨tx.seenAt P now, .add .count⟩ tgt net net' ∧
      (net'.nodes tgt).relayed = (net.nodes tgt).relayed ∧
      (net'.transports tgt).consumeCh.length = (net.transports tgt).consumeCh.length + count := by
  induction count generalizing net with
  | zero =>
    exact ⟨[], net, .start, fun e he => absurd he List.not_mem_nil, .refl _ tgt net, rfl, rfl⟩
  | succ count ih =>
    have hfirst : (net.transports tgt).consumeCh.length < LocalTransport.bufferSize := by omega
    obtain ⟨es₁, mid, hrun₁, hevents₁, hflooded₁, hrelayed₁, hlength₁⟩ :=
      exists_copy hadmits hfirst hverified hencode
    obtain ⟨es₂, net', hrun₂, hevents₂, hflooded₂, hrelayed₂, hlength₂⟩ :=
      ih (hadmits.flooded hflooded₁) (by omega)
    exact ⟨_, net', hrun₁.append hrun₂, List.forall_mem_append.mpr ⟨hevents₁, hevents₂⟩,
      hflooded₁.trans hflooded₂, hrelayed₂.trans hrelayed₁, by omega⟩

/-- The goroutine of `initTransports` takes a message. -/
theorem exists_relay (stopped : Call) (hfree : (net.nodes tgt).relayed = none)
    (hsome : (net.transports tgt).consumeCh ≠ []) :
    ∃ traffic net', Step P C net (.relay tgt) traffic net' ∧ Flooded stopped tgt net net' ∧
      (net'.nodes tgt).relayed ≠ none ∧
      (net'.transports tgt).consumeCh.length ≤ (net.transports tgt).consumeCh.length := by
  obtain ⟨rpc, rest, hwaiting⟩ := List.exists_cons_of_ne_nil hsome
  have hrelay := Step.relay (P := P) (C := C) hwaiting hfree
  refine ⟨_, _, hrelay, ?_, ?_, ?_⟩
  · refine flooded_withNode (fun i => ?_) (fun i hi => ?_) rfl rfl (fun _ => Or.inl rfl) id
      fun hne => absurd rfl hne
    · exact (hrelay.sameLinks i)
    · rw [Function.update_of_ne hi]
  · rw [withNode_self]
    exact nofun
  · rw [withNode_transports, withTransports_transports, Function.update_self, hwaiting]
    exact Nat.le_succ _

/-- **A channel is filled from outside.** The goroutine that empties it holds a message at the end,
since the loop takes none. -/
theorem exists_jam {tx : Transaction} {now : Int64} {data : List UInt8}
    (hadmits : Admits P tx src tgt net)
    (hroom : (net.transports tgt).consumeCh.length ≤ LocalTransport.bufferSize)
    (hverified : tx.verify P = .ok ())
    (hencode : C.transaction.encode (tx.seenAt P now) = .ok data) :
    ∃ es net', History (Step P C) net es net' ∧ (∀ e ∈ es, Flooding tx now src tgt e.1) ∧
      Flooded ⟨tx.seenAt P now, .add .count⟩ tgt net net' ∧ net'.Jammed tgt := by
  -- first something for the goroutine
  obtain ⟨es₁, mid, hrun₁, hevents₁, hflooded₁, hrelayed₁, hroom₁⟩ : ∃ es₁ mid,
      History (Step P C) net es₁ mid ∧ (∀ e ∈ es₁, Flooding tx now src tgt e.1) ∧
        Flooded ⟨tx.seenAt P now, .add .count⟩ tgt net mid ∧ (mid.nodes tgt).relayed ≠ none ∧
        (mid.transports tgt).consumeCh.length ≤ LocalTransport.bufferSize := by
    by_cases hfree : (net.nodes tgt).relayed = none
    · by_cases hempty : (net.transports tgt).consumeCh = []
      · have hpos : (net.transports tgt).consumeCh.length < LocalTransport.bufferSize := by
          rw [hempty]
          decide
        obtain ⟨es, one, hrun, hevents, hflooded, hrelayed, hlength⟩ :=
          exists_copy hadmits hpos hverified hencode
        obtain ⟨traffic, two, hrelay, hflooded', hrelayed', hlength'⟩ :=
          exists_relay (P := P) (C := C) ⟨tx.seenAt P now, .add .count⟩ (hrelayed.trans hfree)
            (List.ne_nil_of_length_eq_add_one hlength)
        exact ⟨_, two, hrun.call hrelay,
          List.forall_mem_append.mpr ⟨hevents, List.forall_mem_singleton.mpr .relay⟩,
          hflooded.trans hflooded', hrelayed', by omega⟩
      · obtain ⟨traffic, one, hrelay, hflooded, hrelayed, hlength⟩ :=
          exists_relay (P := P) (C := C) ⟨tx.seenAt P now, .add .count⟩ hfree hempty
        exact ⟨_, one, .call .start hrelay, List.forall_mem_singleton.mpr .relay, hflooded,
          hrelayed,
          hlength.trans hroom⟩
    · exact ⟨[], net, .start, fun e he => absurd he List.not_mem_nil, .refl _ tgt net, hfree, hroom⟩
  -- then the channel itself
  obtain ⟨es₂, net', hrun₂, hevents₂, hflooded₂, hrelayed₂, hlength₂⟩ :=
    exists_fill (LocalTransport.bufferSize - (mid.transports tgt).consumeCh.length)
      (hadmits.flooded hflooded₁) (by omega) hverified hencode
  refine ⟨_, net', hrun₁.append hrun₂, List.forall_mem_append.mpr ⟨hevents₁, hevents₂⟩,
    hflooded₁.trans hflooded₂, by omega, ?_⟩
  rw [hrelayed₂]
  exact hrelayed₁

omit [DecidableEq κ] in
theorem Answers.flooded {i j k : κ} (h : net.Answers j k)
    (hflooded : Flooded stopped i net net') : net'.Answers j k := by
  obtain ⟨env, rest, hwaiting, hpeer⟩ := h
  refine ⟨env, rest, (hflooded.outgoing j).trans hwaiting, ?_⟩
  rw [(hflooded.links j).2]
  exact hpeer

omit [DecidableEq κ] in
theorem Jammed.flooded {i k : κ} (h : net.Jammed k) (hne : k ≠ i)
    (hflooded : Flooded stopped i net net') : net'.Jammed k := by
  refine ⟨?_, ?_⟩
  · rw [hflooded.channels k hne]
    exact h.full
  · rw [hflooded.relayed k hne]
    exact h.relayed

/-- What holds in every network that was started: peers are entered under their addresses, no
channel is over-full, and finitely many calls are under way. -/
structure Sane (net : LocalNet κ E S) : Prop where
  linked : LocalTransport.Linked net.transports
  room : ∀ k, (net.transports k).consumeCh.length ≤ LocalTransport.bufferSize
  roomy : ∀ k, Roomy (net.nodes k)

omit [DecidableEq κ] [ConsensusEngine P E] [SealingEngine P E] [Storage P S] in
/-- A call that is answered by a peer can be made by its address. -/
theorem Answers.admits {tx : Transaction} {j k : κ} (h : net.Answers j k) (hsane : net.Sane)
    (habsent : ¬ (net.nodes j).node.memPool.contains (tx.hash P)) : Admits P tx j k net := by
  obtain ⟨env, -, -, hpeer⟩ := h
  refine ⟨?_, hsane.roomy j, habsent⟩
  rw [hsane.linked j env.dst k hpeer]
  exact hpeer

/-- **Two servers can be stopped from outside.** Their loops are sending to each other, and neither
has the transaction in its pool. Whoever submits it to both of them, over and over, fills both
channels, if each call has launched its broadcast and goes no further for the time being. Then the
servers are deadlocked. Nothing else has to happen for it than these calls, their broadcasts, and
the goroutines that empty the two channels; and the pools are what they were. -/
theorem flood_deadlocks {j k : κ} (hsane : net.Sane) (hne : j ≠ k) (hjk : net.Answers j k)
    (hkj : net.Answers k j) {tx : Transaction} {now : Int64} {data : List UInt8}
    (habsent : ∀ i ∈ ({j, k} : Set κ), ¬ (net.nodes i).node.memPool.contains (tx.hash P))
    (hverified : tx.verify P = .ok ())
    (hencode : C.transaction.encode (tx.seenAt P now) = .ok data) :
    ∃ es net', History (Step P C) net es net' ∧
      (∀ e ∈ es, Flooding tx now j k e.1 ∨ Flooding tx now k j e.1) ∧
      (∀ i, (net'.nodes i).node.memPool = (net.nodes i).node.memPool) ∧
      (∀ i id, (net'.nodes i).calls id = (net.nodes i).calls id ∨
        (net'.nodes i).calls id = some ⟨tx.seenAt P now, .add .count⟩) ∧
      net'.Deadlocked {j, k} := by
  obtain ⟨es₁, mid, hrun₁, hevents₁, hflooded₁, hjammed₁⟩ :=
    exists_jam (hjk.admits hsane (habsent j (Or.inl rfl))) (hsane.room k) hverified hencode
  have hroom : (mid.transports j).consumeCh.length ≤ LocalTransport.bufferSize := by
    rw [hflooded₁.channels j hne]
    exact hsane.room j
  obtain ⟨es₂, net', hrun₂, hevents₂, hflooded₂, hjammed₂⟩ :=
    exists_jam ((hkj.admits hsane (habsent k (Or.inr rfl))).flooded hflooded₁) hroom hverified
      hencode
  refine ⟨_, net', hrun₁.append hrun₂, ?_, fun i => ?_, hflooded₁.calls_trans hflooded₂,
    fun i hi => ?_⟩
  · refine List.forall_mem_append.mpr ⟨fun e he => Or.inl (hevents₁ e he), fun e he => ?_⟩
    exact Or.inr (hevents₂ e he)
  · exact (hflooded₂.memPool i).trans (hflooded₁.memPool i)
  · rcases hi with rfl | rfl
    · exact ⟨hjammed₂, k, Or.inr rfl, (hjk.flooded hflooded₁).flooded hflooded₂⟩
    · exact ⟨hjammed₁.flooded (Ne.symm hne) hflooded₂, j, Or.inl rfl,
        (hkj.flooded hflooded₁).flooded hflooded₂⟩

/-- The theorem for the two servers, with empty channels. -/
theorem flood_deadlocks_cross : ∃ (es : List (LocalEvent Bool × Traffic Bool))
    (net' : LocalNet Bool PoWEngine MemoryStore),
    History (Step .sample oneTransfer) (crossNet [] none) es net' ∧
      (∀ e ∈ es, Flooding (sampleTransfer 0 0) 0 true false e.1 ∨
        Flooding (sampleTransfer 0 0) 0 false true e.1) ∧
      (∀ i, (net'.nodes i).node.memPool = ((crossNet [] none).nodes i).node.memPool) ∧
      net'.Deadlocked {true, false} := by
  have hsane : (crossNet [] none).Sane := by
    refine ⟨?_, fun _ => Nat.zero_le _, fun _ => ⟨0, fun _ _ => rfl⟩⟩
    exact (LocalTransport.mesh_linked _ _).1.congr fun _ => ⟨rfl, rfl⟩
  have habsent : ∀ k ∈ ({true, false} : Set Bool),
      ¬ ((crossNet [] none).nodes k).node.memPool.contains ((sampleTransfer 0 0).hash .sample) :=
    fun _ _ => List.not_mem_nil
  have hverified : (sampleTransfer 0 0).verify .sample = .ok () := rfl
  have hencode : oneTransfer.transaction.encode ((sampleTransfer 0 0).seenAt .sample 0) =
      .ok [] := rfl
  obtain ⟨es, net', hrun, hevents, hpools, -, hdead⟩ :=
    flood_deadlocks hsane Bool.false_ne_true.symm (answers_crossNet [] none true)
      (answers_crossNet [] none false) habsent hverified hencode
  exact ⟨es, net', hrun, hevents, hpools, hdead⟩

/-! ### Sane networks -/

omit [DecidableEq κ] in
/-- A turn starts one call at most. -/
theorem Roomy.step {n : LocalNode κ E S} {t : Turn} {o : Outcome Err Unit} {s : Process E S}
    (h : Roomy n) (hcall : Process.Step P C n.toProcess t o s) :
    ∃ N, ∀ id, N ≤ id → s.calls id = none := by
  obtain ⟨N, hN⟩ := h
  have hupdate : ∀ (id₀ : ℕ) (c : Option Call),
      ∃ N, ∀ id, N ≤ id → Function.update n.calls id₀ c id = none := by
    intro id₀ c
    refine ⟨max N (id₀ + 1), fun id hid => ?_⟩
    have hlt : id₀ < id := (Nat.le_max_right N (id₀ + 1)).trans hid
    rw [Function.update_of_ne hlt.ne']
    exact hN id ((Nat.le_max_left N (id₀ + 1)).trans hid)
  cases hcall with
  | submit _ => exact hupdate _ _
  | advance _ _ _ => exact hupdate _ _
  | _ => exact ⟨N, hN⟩

theorem Step.sane {e : LocalEvent κ} {tr : Traffic κ} (hstep : Step P C net e tr net')
    (hsane : net.Sane) : net'.Sane := by
  refine ⟨hsane.linked.congr hstep.sameLinks, fun k => hstep.room (hsane.room k), ?_⟩
  have hone : ∀ {ts : κ → LocalTransport κ} {k : κ} {n : LocalNode κ E S}, Roomy n →
      ∀ j, Roomy (((net.withTransports ts).withNode k n).nodes j) :=
    fun hn => forall_withNode (Q := fun _ => Roomy) hsane.roomy hn
  cases hstep with
  | work _ call => exact hone ((hsane.roomy _).step call)
  | handle _ call => exact hone ((hsane.roomy _).step call)
  | accept _ _ _ call _ => exact hone ((hsane.roomy _).step call)
  | mail _ _ _ => exact hone (hsane.roomy _)
  | encode _ _ _ => exact hone (hsane.roomy _)
  | spread _ _ _ => exact hone (hsane.roomy _)
  | relay _ _ => exact hone (hsane.roomy _)
  | hand _ _ _ _ => exact hone (hsane.roomy _)

/-- Every network that servers have come to from their start is sane. -/
theorem sane_of_run {es : List (LocalEvent κ × Traffic κ)} (hstart : Started P net)
    (hrun : History (Step P C) net es net') : net'.Sane := by
  refine hrun.invariant Sane ⟨hstart.linked.1, fun k => ?_, fun k => ?_⟩
    fun _ _ _ _ hsane hstep => hstep.sane hsane
  · rw [hstart.linked.2 k]
    exact Nat.zero_le _
  · obtain ⟨n, hn, -⟩ := hstart.node k
    rw [hn]
    exact ⟨0, fun _ _ => rfl⟩

end LocalNet

end Blockz
