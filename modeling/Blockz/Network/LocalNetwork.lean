import Blockz.Network.LocalTransport

/-!
# The local network as a network of processes

`LocalNet` has channels, calls that wait and goroutines that pass messages on. The network of
`Cluster` has nothing of this: there a message that somebody has sent may arrive anywhere at any
time. `local_network` compares the two. Every run of the local network is a run of the other one,
so all that holds for the processes of the one holds for the servers of the other. In addition no
message is lost or doubled on the way, and none overtakes another one.

The invariant is `LocalNet.Wired`: whatever is in a channel or at hand in a goroutine was said by
one of the servers.
-/

namespace Blockz

open Effect

/-! ### Who has said it -/

section Said

variable {κ E S : Type} {C : Codecs} {n n' : Node E S}

theorem Node.Mails.retains (h : n.Mails n') {payload : List (Gob.Frame Message)}
    (hsaid : n.Says C payload) : n'.Says C payload := by
  rcases hsaid with ⟨env, henv, rfl⟩ | ⟨m, hm, msg, hmsg, rfl⟩
  · obtain ⟨new, hsent, -⟩ := h.server.sent
    refine Or.inl ⟨env, ?_, rfl⟩
    rw [hsent]
    exact List.mem_append_left _ henv
  · refine Or.inr ⟨m, h.launched.subset hm, msg, hmsg, ?_⟩
    rw [h.server.gobId]

/-- What the goroutine broadcasts is a broadcast that the node has launched. -/
def Spreading.SaidBy (C : Codecs) (n : Node E S) : Spreading κ → Prop
  | .launched m => m ∈ n.launched
  | .sending payload _ => n.Says C payload
  | .failed => True

theorem Spreading.SaidBy.mails {g : Spreading κ} (hg : g.SaidBy C n) (h : n.Mails n') :
    g.SaidBy C n' := by
  cases g with
  | launched m => exact h.launched.subset hg
  | sending payload rest => exact h.retains hg
  | failed => trivial

theorem Broadcast.spread_saidBy {m : Broadcast} (hm : m ∈ n.launched) (peers : List κ) :
    (m.spread C n.gobId peers).SaidBy C n := by
  unfold Broadcast.spread
  split
  · rename_i msg hmsg
    exact Or.inr ⟨m, hm, msg, hmsg, rfl⟩
  · trivial

/-- The server sends by its own transport only, and what its goroutines are sending is in its
records. -/
structure LocalNode.Speaks (C : Codecs) (t : LocalTransport κ) (n : LocalNode κ E S) : Prop where
  uses : ∀ tr, n.node.Uses tr → tr = t.toTransport
  outgoing : ∀ env ∈ n.outgoing, env ∈ n.node.sent ∧ env.dst ∈ t.peers
  spreading : ∀ g ∈ n.spreading, g.SaidBy C n.node

namespace LocalNode.Speaks

variable {t t' : LocalTransport κ} {n : LocalNode κ E S} {s : Process E S}

theorem congr (h : n.Speaks C t) (htransport : t'.toTransport = t.toTransport)
    (hpeers : t'.peers = t.peers) : n.Speaks C t' := by
  refine ⟨fun tr htr => ?_, fun env henv => ?_, h.spreading⟩
  · rw [htransport]
    exact h.uses tr htr
  · rw [hpeers]
    exact h.outgoing env henv

/-- A message that the server has got rid of has a destination. -/
theorem mem_peers (h : n.Speaks C t) {env : Envelope} (htakes : n.node.Takes env) :
    env.dst ∈ t.peers := by
  obtain ⟨tr, huses, hok⟩ := htakes
  rw [h.uses tr huses] at hok
  by_contra habsent
  have herr : t.toTransport.sendMessage env.dst env.payload = .err (t.unknownPeer env.dst) :=
    if_neg habsent
  rw [herr] at hok
  exact nomatch hok

theorem turned (h : n.Speaks C t) (hmails : n.node.Mails s.node) : (n.turned s).Speaks C t := by
  refine ⟨fun tr htr => h.uses tr ?_, fun env henv => ?_, fun g hg => ?_⟩
  · rcases htr with ⟨addr, hpeer⟩ | ⟨addr, htransport⟩
    · exact Or.inl ⟨addr, hmails.server.peers ▸ hpeer⟩
    · exact Or.inr ⟨addr, hmails.transports ▸ htransport⟩
  · obtain ⟨hsent, hdst⟩ := h.outgoing env henv
    obtain ⟨new, hnew, -⟩ := hmails.server.sent
    refine ⟨?_, hdst⟩
    show env ∈ s.node.sent
    rw [hnew]
    exact List.mem_append_left _ hsent
  · rcases List.mem_append.mp hg with hold | hnew
    · exact (h.spreading g hold).mails hmails
    · obtain ⟨m, hm, rfl⟩ := List.mem_map.mp hnew
      exact List.mem_of_mem_drop hm

theorem mail (h : n.Speaks C t) (hmails : n.node.Mails s.node) {env : Envelope}
    (henv : env ∈ n.mail s) : env ∈ s.node.sent ∧ env.dst ∈ t.peers := by
  obtain ⟨new, hnew, htaken⟩ := hmails.server.sent
  unfold LocalNode.mail at henv
  rw [hnew, List.drop_left] at henv
  refine ⟨?_, h.mem_peers (htaken env henv)⟩
  rw [hnew]
  exact List.mem_append_right _ henv

theorem set_spreading (h : n.Speaks C t) (i : ℕ) {g : Spreading κ} (hg : g.SaidBy C n.node) :
    ({ n with spreading := n.spreading.set i g } : LocalNode κ E S).Speaks C t := by
  refine ⟨h.uses, h.outgoing, fun g' hg' => ?_⟩
  rcases List.mem_or_eq_of_mem_set hg' with hold | rfl
  · exact h.spreading g' hold
  · exact hg

theorem addPeer (h : n.Speaks C t) (addr : NetAddr) (r : Option RPC) :
    ({ n with node := n.node.addPeer addr t.toTransport, relayed := r } :
      LocalNode κ E S).Speaks C t := by
  refine ⟨fun tr htr => ?_, h.outgoing, h.spreading⟩
  rcases htr with ⟨a, hpeer⟩ | ⟨a, htransport⟩
  · change (if a = addr then some ((n.node.peers a).getD t.toTransport) else n.node.peers a) =
      some tr at hpeer
    split at hpeer
    · cases hold : n.node.peers a with
      | none =>
        rw [hold] at hpeer
        exact (Option.some.inj hpeer).symm
      | some tr' =>
        rw [hold] at hpeer
        exact h.uses tr (Or.inl ⟨a, hold.trans hpeer⟩)
    · exact h.uses tr (Or.inl ⟨a, hpeer⟩)
  · exact h.uses tr (Or.inr ⟨a, htransport⟩)

end LocalNode.Speaks

end Said

namespace LocalNet

variable {κ E S : Type} [DecidableEq κ] {net net' : LocalNet κ E S}

theorem forall_withNode {Q : κ → LocalNode κ E S → Prop} {k : κ} {n : LocalNode κ E S}
    (hold : ∀ j, Q j (net.nodes j)) (hnew : Q k n) : ∀ j, Q j ((net.withNode k n).nodes j) := by
  intro j
  by_cases heq : j = k
  · subst heq
    rwa [withNode_self]
  · rw [withNode_of_ne n heq]
    exact hold j

/-- Every message that is under way was said by a server. -/
structure Wired (C : Codecs) (net : LocalNet κ E S) : Prop where
  speaks : ∀ k, (net.nodes k).Speaks C (net.transports k)
  said : ∀ k, ∀ rpc ∈ net.inFlight k, ∃ j, (net.nodes j).node.Says C rpc.payload

variable {P : Primitives} [ConsensusEngine P E] [SealingEngine P E] [Storage P S] {C : Codecs}
  {e : LocalEvent κ} {tr : Traffic κ}

/-- What a server has said stays said. -/
theorem Step.retains (hstep : Step P C net e tr net') :
    ∀ k payload, (net.nodes k).node.Says C payload → (net'.nodes k).node.Says C payload := by
  let Q : κ → LocalNode κ E S → Prop := fun k n =>
    ∀ payload, (net.nodes k).node.Says C payload → n.node.Says C payload
  have hone : ∀ {ts : κ → LocalTransport κ} {k : κ} {n : LocalNode κ E S}, Q k n →
      ∀ j, Q j (((net.withTransports ts).withNode k n).nodes j) :=
    forall_withNode fun _ _ h => h
  cases hstep with
  | work aside call =>
    refine hone fun _ => (call.mails ?_).retains
    rintro addr tr rfl
    exact aside.elim
  | handle _ call => exact hone fun _ => (call.mails nofun).retains
  | accept _ _ _ call _ => exact hone fun _ => (call.mails nofun).retains
  | mail _ _ _ => exact hone fun _ h => h
  | encode _ _ _ => exact hone fun _ h => h
  | spread _ _ _ => exact hone fun _ h => h
  | relay _ _ => exact hone fun _ h => h
  | hand _ _ _ _ => exact hone fun _ h => h

theorem Step.speaks (hstep : Step P C net e tr net')
    (hspeaks : ∀ k, (net.nodes k).Speaks C (net.transports k)) :
    ∀ k, (net'.nodes k).Speaks C (net'.transports k) := by
  let Q : κ → LocalNode κ E S → Prop := fun k n => n.Speaks C (net.transports k)
  have hone : ∀ {ts : κ → LocalTransport κ} {k : κ} {n : LocalNode κ E S}, Q k n →
      ∀ j, Q j (((net.withTransports ts).withNode k n).nodes j) :=
    forall_withNode hspeaks
  -- the links are those of before, so the old transports will do
  suffices hold : ∀ k, (net'.nodes k).Speaks C (net.transports k) from
    fun k => (hold k).congr (hstep.sameLinks.toTransport k) (hstep.sameLinks k).2
  cases hstep with
  | work aside call =>
    refine hone ((hspeaks _).turned (call.mails ?_))
    rintro addr tr rfl
    exact aside.elim
  | handle _ call =>
    have hturned := (hspeaks _).turned (call.mails nofun)
    exact hone ⟨hturned.uses, fun _ => (hspeaks _).mail (call.mails nofun), hturned.spreading⟩
  | accept _ _ _ call _ =>
    have hturned := (hspeaks _).turned (call.mails nofun)
    exact hone ⟨hturned.uses, fun _ => (hspeaks _).mail (call.mails nofun), hturned.spreading⟩
  | @mail k env rest _ _ waiting _ _ =>
    refine hone ⟨(hspeaks k).uses, fun env' henv' => (hspeaks k).outgoing env' ?_,
      (hspeaks k).spreading⟩
    rw [waiting]
    exact List.mem_cons_of_mem _ henv'
  | @encode k i m _ started _ _ =>
    have hm : m ∈ (net.nodes k).node.launched :=
      (hspeaks k).spreading _ (List.mem_of_getElem? started)
    exact hone ((hspeaks k).set_spreading i (Broadcast.spread_saidBy hm _))
  | @spread k _ i _ _ _ _ waiting _ _ =>
    refine hone ((hspeaks k).set_spreading i ?_)
    split
    · exact (hspeaks k).spreading (.sending _ (_ :: _)) (List.mem_of_getElem? waiting)
    · trivial
  | relay _ _ => exact hone ((hspeaks _).addPeer _ _)
  | @hand k _ _ _ _ _ =>
    exact hone ⟨(hspeaks k).uses, (hspeaks k).outgoing, (hspeaks k).spreading⟩

omit [DecidableEq κ] in
theorem said_of_mem_addressed {ts : κ → LocalTransport κ} {k : κ} {dst : NetAddr}
    {payload : List (Gob.Frame Message)} {x : κ × RPC}
    (hx : x ∈ LocalTransport.addressed ts k dst payload) : x.2.payload = payload := by
  obtain ⟨j, -, rfl⟩ := List.mem_map.mp hx
  rfl

/-- What goes into a channel was said by the one who sends it. -/
theorem Step.put_said (hstep : Step P C net e tr net') (hwired : Wired C net) {x : κ × RPC}
    (hx : x ∈ tr.put) : ∃ k, (net.nodes k).node.Says C x.2.payload := by
  cases hstep with
  | @mail k env rest _ _ waiting _ _ =>
    refine ⟨k, Or.inl ⟨env, ((hwired.speaks k).outgoing env ?_).1, ?_⟩⟩
    · rw [waiting]
      exact List.mem_cons_self
    · exact (said_of_mem_addressed hx).symm
  | @spread k _ i payload _ _ _ waiting _ _ =>
    refine ⟨k, ?_⟩
    rw [said_of_mem_addressed hx]
    exact (hwired.speaks k).spreading _ (List.mem_of_getElem? waiting)
  | _ => exact nomatch hx

theorem Step.wired (hstep : Step P C net e tr net') (hwired : Wired C net) : Wired C net' := by
  refine ⟨hstep.speaks hwired.speaks, fun k rpc hrpc => ?_⟩
  have hmem : rpc ∈ net.inFlight k ++ part k tr.put := by
    rw [hstep.inFlight k]
    exact List.mem_append_right _ hrpc
  have hsaid : ∃ j, (net.nodes j).node.Says C rpc.payload := by
    rcases List.mem_append.mp hmem with hold | hnew
    · exact hwired.said k rpc hold
    · exact hstep.put_said hwired (mem_part.mp hnew)
  obtain ⟨j, hj⟩ := hsaid
  exact ⟨j, hstep.retains j _ hj⟩

/-! ### The network without channels -/

/-- A server that is the same process. -/
theorem processes_same {k : κ} {n : LocalNode κ E S}
    (hn : n.toProcess = (net.nodes k).toProcess) :
    (net.withNode k n).processes = net.processes := by
  rw [processes_withNode, hn]
  exact Function.update_eq_self k _

/-- **Each event is a turn of a process, or none.** -/
theorem Step.processes (hstep : Step P C net e tr net') (hwired : Wired C net) :
    History (Swarm (Process.Step P C) (Arrives C)) net.processes tr.turns net'.processes := by
  cases hstep with
  | work aside call =>
    rw [processes_withNode]
    refine .call .start (.turn ?_ call)
    rename_i t _ _
    cases t <;> trivial
  | handle _ call =>
    rw [processes_withNode]
    exact .call .start (.turn trivial call)
  | @accept k _ rpc _ _ _ given _ decoded call _ =>
    rw [processes_withNode]
    refine .call .start (.turn ?_ call)
    have hmem : rpc ∈ net.inFlight k := by
      unfold LocalNet.inFlight
      rw [given]
      exact List.mem_cons_self
    obtain ⟨j, hj⟩ := hwired.said k rpc hmem
    exact ⟨j, rpc.sender, rpc.payload, hj, decoded⟩
  | relay _ _ =>
    rw [processes_withNode]
    exact .call .start (.turn trivial .meet)
  | mail _ _ _ =>
    rw [processes_same (by rfl)]
    exact .start
  | encode _ _ _ =>
    rw [processes_same (by rfl)]
    exact .start
  | spread _ _ _ =>
    rw [processes_same (by rfl)]
    exact .start
  | hand _ _ _ _ =>
    rw [processes_same (by rfl)]
    exact .start

/-! ### What the loop has sent -/

/-- Every message that the loop has sent is in the records, the last one perhaps before its call
of `SendMessage` has come back. -/
theorem Step.sent (hstep : Step P C net e tr net') {k : κ} {past : List Envelope}
    (hsent : (net.nodes k).node.sent = past ++ (net.nodes k).outgoing) :
    (net'.nodes k).node.sent = (past ++ part k tr.mailed) ++ (net'.nodes k).outgoing := by
  have hone : ∀ {ts : κ → LocalTransport κ} {k' : κ} {n : LocalNode κ E S},
      (k = k' → n.node.sent = (past ++ part k tr.mailed) ++ n.outgoing) →
      (k ≠ k' → part k tr.mailed = []) →
      (((net.withTransports ts).withNode k' n).nodes k).node.sent = (past ++ part k tr.mailed) ++
        (((net.withTransports ts).withNode k' n).nodes k).outgoing := by
    intro ts k' n hself hother
    by_cases heq : k = k'
    · subst heq
      rw [withNode_self]
      exact hself rfl
    · rw [withNode_of_ne n heq, hother heq, List.append_nil]
      exact hsent
  have hsame : (net.nodes k).node.sent = (past ++ []) ++ (net.nodes k).outgoing := by
    rwa [List.append_nil]
  -- the loop had nothing to send, and now has what the turn has sent
  have hmail : ∀ {s : Process E S}, (net.nodes k).outgoing = [] →
      (net.nodes k).node.Mails s.node →
      s.node.sent = (past ++ []) ++ (net.nodes k).mail s := by
    intro s hfree hmails
    obtain ⟨new, hnew, -⟩ := hmails.server.sent
    unfold LocalNode.mail
    rw [hnew, List.drop_left, hsent, hfree, List.append_nil]
  cases hstep with
  | work aside call =>
    refine hone ?_ fun _ => rfl
    rintro rfl
    exact (call.sent_eq aside).trans hsame
  | handle free call =>
    refine hone ?_ fun _ => rfl
    rintro rfl
    exact hmail free (call.mails nofun)
  | accept _ free _ call _ =>
    refine hone ?_ fun _ => rfl
    rintro rfl
    exact hmail free (call.mails nofun)
  | @mail k' env rest _ _ waiting _ _ =>
    refine hone ?_ fun heq => part_of_ne env (Ne.symm heq)
    rintro rfl
    show (net.nodes k).node.sent = (past ++ part k [(k, env)]) ++ rest
    rw [hsent, waiting, part_self]
    exact List.append_cons _ _ _
  | encode _ _ _ => exact hone (fun heq => heq ▸ hsame) fun _ => rfl
  | spread _ _ _ => exact hone (fun heq => heq ▸ hsame) fun _ => rfl
  | relay _ _ => exact hone (fun heq => heq ▸ hsame) fun _ => rfl
  | hand _ _ _ _ => exact hone (fun heq => heq ▸ hsame) fun _ => rfl

/-- A message that the loop has sent is in the channel of the peer. -/
theorem Step.mailed (hstep : Step P C net e tr net') (hwired : Wired C net)
    (hlinked : LocalTransport.Linked net.transports) {k : κ} {env : Envelope}
    (hmail : (k, env) ∈ tr.mailed) :
    ∃ j, (net.transports j).addr = env.dst ∧
      tr.put = [(j, ⟨(net.transports k).addr, env.payload⟩)] := by
  cases hstep with
  | mail waiting _ _ =>
    obtain ⟨rfl, rfl⟩ := Prod.mk.inj (List.mem_singleton.mp hmail)
    have hmem : env ∈ (net.nodes k).outgoing := by
      rw [waiting]
      exact List.mem_cons_self
    obtain ⟨j, hj⟩ := Finmap.mem_iff.mp ((hwired.speaks k).outgoing env hmem).2
    exact ⟨j, hlinked k env.dst j hj, LocalTransport.addressed_of_lookup hj env.payload⟩
  | _ => exact nomatch hmail

/-! ### Runs -/

omit [SealingEngine P E] in
theorem Started.linked (hstart : Started P net) :
    LocalTransport.Linked net.transports ∧ ∀ k, (net.transports k).consumeCh = [] := by
  obtain ⟨addrs, links, htransports⟩ := hstart.transports
  rw [htransports]
  exact LocalTransport.mesh_linked addrs links

omit [SealingEngine P E] in
/-- What `NewServer` makes has said nothing. -/
theorem Started.node (hstart : Started P net) (k : κ) :
    ∃ n : Node E S, net.nodes k = .start n ∧ n.sent = [] ∧ n.launched = [] ∧
      ∀ tr, n.Uses tr → tr = (net.transports k).toTransport := by
  obtain ⟨fuel, opts, n, hnew, htransports, hn⟩ := hstart.nodes k
  refine ⟨n, hn, ?_⟩
  obtain ⟨bc, -, hmade⟩ := Outcome.bind_eq_ok.mp hnew
  obtain rfl := Outcome.ok.inj hmade
  refine ⟨rfl, rfl, fun tr huses => ?_⟩
  rcases huses with ⟨addr, hpeer⟩ | ⟨addr, hmem⟩
  · exact nomatch hpeer
  · change (addr, tr) ∈ opts.transports at hmem
    rw [htransports] at hmem
    exact (Prod.mk.inj (List.mem_singleton.mp hmem)).2

omit [SealingEngine P E] in
theorem Started.inFlight (hstart : Started P net) (k : κ) : net.inFlight k = [] := by
  obtain ⟨n, hn, -⟩ := hstart.node k
  unfold LocalNet.inFlight
  rw [hn, hstart.linked.2 k]
  rfl

omit [SealingEngine P E] in
theorem Started.wired (hstart : Started P net) : Wired C net := by
  refine ⟨fun k => ?_, fun k rpc hrpc => ?_⟩
  · obtain ⟨n, hn, -, -, huses⟩ := hstart.node k
    rw [hn]
    exact ⟨huses, fun env henv => absurd henv List.not_mem_nil,
      fun g hg => absurd hg List.not_mem_nil⟩
  · rw [hstart.inFlight k] at hrpc
    exact absurd hrpc List.not_mem_nil

variable {es : List (LocalEvent κ × Traffic κ)}

theorem linked_of_run (hstart : Started P net) (hrun : History (Step P C) net es net') :
    LocalTransport.Linked net'.transports ∧
      LocalTransport.SameLinks net.transports net'.transports := by
  refine hrun.invariant (fun net' => LocalTransport.Linked net'.transports ∧
    LocalTransport.SameLinks net.transports net'.transports)
    ⟨hstart.linked.1, fun _ => ⟨rfl, rfl⟩⟩ ?_
  rintro mid i o next ⟨hlinked, hsame⟩ hstep
  have hnext := hstep.sameLinks
  refine ⟨hlinked.congr hnext, fun k => ?_⟩
  exact ⟨(hnext k).1.trans (hsame k).1, (hnext k).2.trans (hsame k).2⟩

/-- **The channels are an implementation of the network.** A run of servers on local transports,
with all the calls that wait and the goroutines in between, is a run of the network of processes in
which messages may arrive at any time. What was put into the channel of a server is what its loop
has taken up, in this order, and then what is still on the way; no channel has more than 1024
messages. The loop has sent what its records say, up to the call that waits, and each of these
messages was put into the channel of the server that has the address. -/
theorem local_network (hstart : Started P net) (hrun : History (Step P C) net es net') :
    History (Swarm (Process.Step P C) (Arrives C)) net.processes (es.flatMap fun e => e.2.turns)
        net'.processes ∧
      (∀ k, part k (es.flatMap fun e => e.2.put) =
        part k (es.flatMap fun e => e.2.taken) ++ net'.inFlight k) ∧
      (∀ k, (net'.transports k).consumeCh.length ≤ LocalTransport.bufferSize) ∧
      (∀ k, (net'.nodes k).node.sent =
        part k (es.flatMap fun e => e.2.mailed) ++ (net'.nodes k).outgoing) ∧
      ∀ e ∈ es, ∀ k env, (k, env) ∈ e.2.mailed → ∃ j, (net.transports j).addr = env.dst ∧
        e.2.put = [(j, ⟨(net.transports k).addr, env.payload⟩)] := by
  have hsimulated : Wired C net' ∧ History (Swarm (Process.Step P C) (Arrives C)) net.processes
      (es.flatMap fun e => e.2.turns) net'.processes :=
    hrun.simulated LocalNet.processes (Wired C) hstart.wired fun _ _ _ _ hwired hstep =>
      ⟨hstep.wired hwired, hstep.processes hwired⟩
  refine ⟨hsimulated.2, fun k => ?_, fun k => ?_, fun k => ?_, ?_⟩
  · have hconserved := hrun.conserved (fun net => net.inFlight k) (fun e => part k e.2.put)
      (fun e => part k e.2.taken) fun _ _ _ _ hstep => hstep.inFlight k
    rw [hstart.inFlight k, List.nil_append] at hconserved
    rw [part_flatMap, part_flatMap, hconserved]
  · refine hrun.invariant
      (fun net => (net.transports k).consumeCh.length ≤ LocalTransport.bufferSize) ?_
      fun _ _ _ _ hroom hstep => hstep.room hroom
    rw [hstart.linked.2 k]
    exact Nat.zero_le _
  · rw [part_flatMap]
    refine hrun.recorded (fun es net => (net.nodes k).node.sent =
      (es.flatMap fun e => part k e.2.mailed) ++ (net.nodes k).outgoing) ?_ ?_
    · obtain ⟨n, hn, hsent, -⟩ := hstart.node k
      rw [hn]
      exact hsent
    · intro es mid i o next _ hsent hstep
      rw [List.flatMap_append, List.flatMap_singleton]
      exact hstep.sent hsent
  · refine (hrun.recorded (fun es net' => Wired C net' ∧
      ∀ e ∈ es, ∀ k env, (k, env) ∈ e.2.mailed → ∃ j, (net.transports j).addr = env.dst ∧
        e.2.put = [(j, ⟨(net.transports k).addr, env.payload⟩)])
      ⟨hstart.wired, fun _ he => absurd he List.not_mem_nil⟩ ?_).2
    rintro es mid i o next hpast ⟨hwired, hmailed⟩ hstep
    refine ⟨hstep.wired hwired, fun e he k env hmem => ?_⟩
    rcases List.mem_append.mp he with hold | hlast
    · exact hmailed e hold k env hmem
    · obtain rfl := List.mem_singleton.mp hlast
      obtain ⟨hlinked, hsame⟩ := linked_of_run hstart hpast
      obtain ⟨j, hj, hput⟩ := hstep.mailed hwired hlinked hmem
      exact ⟨j, (hsame j).1.symm.trans hj, (hsame k).1 ▸ hput⟩

/-! ### A message on its way -/

/-- A server that has nothing to do gets the message of a broadcast. -/
theorem exists_delivery {k j : κ} {i : ℕ} {payload : List (Gob.Frame Message)} {rest : List κ}
    (hne : j ≠ k) (hpeer : (net.transports k).peers.lookup (net.transports j).addr = some j)
    (hspreading : (net.nodes k).spreading[i]? = some (.sending payload (j :: rest)))
    (hempty : (net.transports j).consumeCh = []) {n : Node E S} (hj : net.nodes j = .start n) :
    ∃ net', History (Step P C) net
        [(.spread k i, { put := [(j, ⟨(net.transports k).addr, payload⟩)] }),
          (.relay j, { turns := [((j, .meet (net.transports k).addr
            (net.transports j).toTransport), .ok ())] }), (.hand j, {})] net' ∧
      (net'.nodes k).toProcess = (net.nodes k).toProcess ∧
      (net'.nodes k).spreading = (net.nodes k).spreading.set i (.sending payload rest) ∧
      net'.nodes j =
        { (.start (n.addPeer (net.transports k).addr (net.transports j).toTransport) :
            LocalNode κ E S) with
          received := some ⟨(net.transports k).addr, payload⟩ } := by
  -- the channel of the receiver is empty, so there is room
  have hcall : LocalTransport.sendMessage k (net.transports j).addr payload net.transports =
      (.ok (), Function.update net.transports j
        ((net.transports j).push ⟨(net.transports k).addr, payload⟩)) := by
    unfold LocalTransport.sendMessage
    rw [hpeer]
    refine if_pos ?_
    rw [hempty]
    decide
  -- the sender puts the message into the channel
  obtain ⟨net₁, hspread, hk₁, hspreading₁, hj₁, hchannel, htransport⟩ : ∃ net₁ : LocalNet κ E S,
      Step P C net (.spread k i) { put := [(j, ⟨(net.transports k).addr, payload⟩)] } net₁ ∧
      (net₁.nodes k).toProcess = (net.nodes k).toProcess ∧
      (net₁.nodes k).spreading = (net.nodes k).spreading.set i (.sending payload rest) ∧
      net₁.nodes j = .start n ∧
      (net₁.transports j).consumeCh = [⟨(net.transports k).addr, payload⟩] ∧
      (net₁.transports j).toTransport = (net.transports j).toTransport := by
    have hstep := Step.spread (P := P) (C := C) hspreading hcall trivial
    rw [LocalTransport.addressed_of_lookup hpeer] at hstep
    refine ⟨_, hstep, ?_, ?_, ?_, ?_, ?_⟩
    · rw [withNode_self]
    · rw [withNode_self, if_pos rfl]
    · rw [withNode_of_ne _ hne]
      exact hj
    · rw [withNode_transports, withTransports_transports, Function.update_self]
      show (net.transports j).consumeCh ++ _ = _
      rw [hempty]
      rfl
    · rw [withNode_transports, withTransports_transports, Function.update_self]
      rfl
  -- the goroutine of the receiver takes it out, and the server meets the sender
  obtain ⟨net₂, hrelay, hk₂, hj₂⟩ : ∃ net₂ : LocalNet κ E S,
      Step P C net₁ (.relay j) { turns := [((j, .meet (net.transports k).addr
        (net.transports j).toTransport), .ok ())] } net₂ ∧
      net₂.nodes k = net₁.nodes k ∧
      net₂.nodes j =
        { (.start (n.addPeer (net.transports k).addr (net.transports j).toTransport) :
            LocalNode κ E S) with
          relayed := some ⟨(net.transports k).addr, payload⟩ } := by
    have hfree : (net₁.nodes j).relayed = none := by
      rw [hj₁]
      rfl
    have hstep := Step.relay (P := P) (C := C) hchannel hfree
    rw [htransport, hj₁] at hstep
    refine ⟨_, hstep, withNode_of_ne _ (Ne.symm hne), ?_⟩
    rw [withNode_self]
    rfl
  -- the server loop, which is doing nothing else, is handed the message
  have hgiven : (net₂.nodes j).relayed = some ⟨(net.transports k).addr, payload⟩ := by
    rw [hj₂]
  have hhand := Step.hand (P := P) (C := C) hgiven (by rw [hj₂]; rfl) (by rw [hj₂]; rfl)
    (by rw [hj₂]; rfl)
  refine ⟨_, .cons hspread (.cons hrelay (.cons hhand .start)), ?_, ?_, ?_⟩
  · rw [withNode_of_ne _ (Ne.symm hne), hk₂, hk₁]
  · rw [withNode_of_ne _ (Ne.symm hne), hk₂, hspreading₁]
  · rw [withNode_self, hj₂]
    rfl

end LocalNet

namespace LocalNet

/-- A transport that is connected to another one. -/
def pairTransports : Bool → LocalTransport Bool :=
  LocalTransport.mesh (fun k => if k then "A" else "B") [(true, false)]

theorem lookup_pairTransports : (pairTransports true).peers.lookup "B" = some false := by
  unfold pairTransports LocalTransport.mesh LocalTransport.connect
  simp [LocalTransport.newLocalTransport]

theorem mem_pairTransports (addr : NetAddr) :
    addr ∈ ["B"] ↔ addr ∈ (pairTransports true).peers := by
  unfold pairTransports LocalTransport.mesh LocalTransport.connect
  simp [LocalTransport.newLocalTransport, Finmap.notMem_empty]

def pairOpts (k : Bool) : Node.ServerOpts PoWEngine MemoryStore :=
  { Node.sampleOpts with
    transports := [((pairTransports k).addr, (pairTransports k).toTransport)] }

def pairNode (k : Bool) : Node PoWEngine MemoryStore :=
  { Node.sampleNode with
    transports := [((pairTransports k).addr, (pairTransports k).toTransport)] }

def pairNet : LocalNet Bool PoWEngine MemoryStore where
  transports := pairTransports
  nodes k := .start (pairNode k)

theorem started_pairNet : Started .sample pairNet where
  transports := ⟨_, _, rfl⟩
  nodes k := ⟨1, pairOpts k, pairNode k, rfl, rfl, rfl⟩

/-- Every transaction on this wire is the same one. -/
def oneTransfer : Codecs :=
  { Node.noContent with
    transaction := ⟨fun _ => .ok [], fun _ => .ok (sampleTransfer 0 0)⟩ }

/-- A transfer is submitted to the one server, and the loop of the other one takes it up. -/
theorem exists_pairRun : ∃ (payload : List (Gob.Frame Message))
    (es : List (LocalEvent Bool × Traffic Bool)) (net' : LocalNet Bool PoWEngine MemoryStore),
    History (Step .sample oneTransfer) pairNet es net' ∧
      (net'.nodes true).node.launched =
        [.transaction ((sampleTransfer 0 0).seenAt .sample 0)] ∧
      (net'.nodes true).spreading = [.sending payload []] ∧
      part false (es.flatMap fun e => e.2.taken) = [⟨"A", payload⟩] := by
  obtain ⟨es, net₁, hrun, hgob, hlaunched, hspreading, htransports, hother, htaken⟩ :
      ∃ es net₁, History (Step .sample oneTransfer) pairNet es net₁ ∧
        (net₁.nodes true).node.gobId = 65 ∧
        (net₁.nodes true).node.launched =
          [.transaction ((sampleTransfer 0 0).seenAt .sample 0)] ∧
        (net₁.nodes true).spreading =
          [.launched (.transaction ((sampleTransfer 0 0).seenAt .sample 0))] ∧
        net₁.transports = pairTransports ∧ net₁.nodes false = .start (pairNode false) ∧
        es.flatMap (fun e => e.2.taken) = [] :=
    ⟨_, _, .cons (.work (k := true) (t := .submit 0 (sampleTransfer 0 0)) trivial (.submit rfl)) <|
      .cons (.work (k := true) (t := .advance 0 0) trivial (.advance rfl rfl trivial)) <|
      .cons (.work (k := true) (t := .advance 0 0) trivial (.advance rfl rfl trivial)) .start,
      rfl, rfl, rfl, rfl, rfl, rfl⟩
  -- the goroutine encodes it
  obtain ⟨net₂, hencode, hlaunched₂, hspreading₂, htransports₂, hother₂⟩ : ∃ net₂,
      Step .sample oneTransfer net₁ (.encode true 0 ["B"]) {} net₂ ∧
        (net₂.nodes true).node.launched = (net₁.nodes true).node.launched ∧
        (net₂.nodes true).spreading = [.sending ((newMessage .tx []).bytes 65) [false]] ∧
        net₂.transports = pairTransports ∧ net₂.nodes false = .start (pairNode false) := by
    have hstarted : (net₁.nodes true).spreading[0]? =
        some (.launched (.transaction ((sampleTransfer 0 0).seenAt .sample 0))) := by
      rw [hspreading]
      rfl
    have hall : ∀ addr, addr ∈ ["B"] ↔ addr ∈ (net₁.transports true).peers := by
      rw [htransports]
      exact mem_pairTransports
    refine ⟨_, .encode hstarted (List.nodup_singleton _) hall, by rw [withNode_self], ?_,
      htransports, hother⟩
    rw [withNode_self]
    show (net₁.nodes true).spreading.set 0 _ = _
    rw [hspreading, htransports, hgob, List.filterMap_cons, lookup_pairTransports]
    rfl
  have hpeer : (net₂.transports true).peers.lookup (net₂.transports false).addr = some false := by
    rw [htransports₂]
    exact lookup_pairTransports
  have hnext : (net₂.nodes true).spreading[0]? =
      some (.sending ((newMessage .tx []).bytes 65) [false]) := by
    rw [hspreading₂]
    rfl
  have hempty : (net₂.transports false).consumeCh = [] := by
    rw [htransports₂]
    rfl
  obtain ⟨net₃, hdelivery, hprocess, hspreading₃, hother₃⟩ :=
    exists_delivery (P := .sample) (C := oneTransfer) Bool.false_ne_true hpeer hnext hempty hother₂
  -- and the other loop decodes it
  have hgiven : (net₃.nodes false).received =
      some ⟨(net₂.transports true).addr, (newMessage .tx []).bytes 65⟩ := by
    rw [hother₃]
  have hdecoded : defaultRPCDecodeFunc oneTransfer
      ⟨(net₂.transports true).addr, (newMessage .tx []).bytes 65⟩ =
        .ok ⟨"A", .transaction (sampleTransfer 0 0)⟩ := by
    rw [htransports₂]
    rfl
  obtain ⟨s, hcall, hdialed⟩ : ∃ s, Process.Step .sample oneTransfer (net₃.nodes false).toProcess
      (.receive Node.sampleMoment ⟨"A", .transaction (sampleTransfer 0 0)⟩) (.ok ()) s ∧
        s.node.dialed = (net₃.nodes false).node.dialed := by
    rw [hother₃]
    exact ⟨_, .receive rfl rfl trivial, rfl⟩
  have haccept := Step.accept hgiven (by rw [hother₃]; rfl) hdecoded hcall hdialed
  refine ⟨(newMessage .tx []).bytes 65, _, _,
    ((hrun.call hencode).append hdelivery).call haccept, ?_, ?_, ?_⟩
  · rw [withNode_of_ne _ Bool.false_ne_true.symm, hprocess, hlaunched₂, hlaunched]
  · rw [withNode_of_ne _ Bool.false_ne_true.symm, hspreading₃, hspreading₂]
    rfl
  · rw [List.flatMap_append, List.flatMap_append, List.flatMap_append, htaken, htransports₂]
    rfl

/-- The theorem for this run. -/
theorem local_network_pair : ∃ (payload : List (Gob.Frame Message))
    (es : List (LocalEvent Bool × Traffic Bool)) (net' : LocalNet Bool PoWEngine MemoryStore),
    History (Step .sample oneTransfer) pairNet es net' ∧
      part false (es.flatMap fun e => e.2.put) = ⟨"A", payload⟩ :: net'.inFlight false ∧
      History (Swarm (Process.Step .sample oneTransfer) (Arrives oneTransfer)) pairNet.processes
        (es.flatMap fun e => e.2.turns) net'.processes := by
  obtain ⟨payload, es, net', hrun, -, -, htaken⟩ := exists_pairRun
  obtain ⟨hsimulated, hconserved, -⟩ := local_network started_pairNet hrun
  refine ⟨payload, es, net', hrun, ?_, hsimulated⟩
  rw [hconserved false, htaken]
  rfl

end LocalNet

end Blockz
