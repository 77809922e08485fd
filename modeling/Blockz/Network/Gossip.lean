import Blockz.Network.LocalNetwork

/-!
# Broadcasts on local transports

A goroutine is started for every broadcast. It encodes the message and goes through the peers, in
the order of a `range` over a map, and each call of `SendMessage` may wait. `Spreading.Progress`
says how far a goroutine has come. By `broadcast_reaches` it never gives the same peer the message
twice, and when it is through, every peer was given it.
-/

namespace Blockz

open Effect

/-! ### Broadcasts -/

section Broadcasts

variable {κ E S : Type} {C : Codecs}

/-- How far the goroutine of a broadcast has come, if it has put `done` into the channels. -/
def Spreading.Progress (C : Codecs) (t : LocalTransport κ) (gobId : ℕ) (m : Broadcast)
    (done : List (κ × RPC)) : Spreading κ → Prop
  | .launched m' => m' = m ∧ done = []
  | .sending payload rest => ∃ (msg : Message) (order : List NetAddr),
      m.message C = .ok msg ∧ payload = msg.bytes gobId ∧ order.Nodup ∧
      (∀ addr, addr ∈ order ↔ addr ∈ t.peers) ∧
      done ++ rest.map (fun j => (j, ⟨t.addr, payload⟩)) =
        (order.filterMap t.peers.lookup).map fun j => (j, ⟨t.addr, payload⟩)
  | .failed => done = []

/-- The peers that were given the message, and those that are left. -/
theorem fst_of_progress {t : LocalTransport κ} {payload : List (Gob.Frame Message)}
    {done : List (κ × RPC)} {rest peers : List κ}
    (hall : done ++ rest.map (fun j => (j, ⟨t.addr, payload⟩)) =
      peers.map fun j => (j, (⟨t.addr, payload⟩ : RPC))) : done.map Prod.fst ++ rest = peers := by
  have hfst := congrArg (List.map Prod.fst) hall
  rw [List.map_append, List.map_map, List.map_map] at hfst
  have hid : (Prod.fst ∘ fun j => (j, (⟨t.addr, payload⟩ : RPC))) = (id : κ → κ) := rfl
  rwa [hid, List.map_id, List.map_id] at hfst

/-- The goroutines are those of the broadcasts that were launched, in this order. -/
structure LocalNode.Spreads (C : Codecs) (t : LocalTransport κ) (done : ℕ → List (κ × RPC))
    (n : LocalNode κ E S) : Prop where
  length : n.spreading.length = n.node.launched.length
  idle : ∀ i, n.spreading.length ≤ i → done i = []
  progress : ∀ (i : ℕ) (g : Spreading κ) (m : Broadcast), n.spreading[i]? = some g →
    n.node.launched[i]? = some m → g.Progress C t n.node.gobId m (done i)

namespace LocalNode.Spreads

variable {t t' : LocalTransport κ} {done done' : ℕ → List (κ × RPC)} {n : LocalNode κ E S}
  {s : Process E S}

theorem congr (h : n.Spreads C t done) (haddr : t'.addr = t.addr) (hpeers : t'.peers = t.peers) :
    n.Spreads C t' done := by
  refine ⟨h.length, h.idle, fun i g m hg hm => ?_⟩
  have hprogress := h.progress i g m hg hm
  cases g with
  | launched m' => exact hprogress
  | sending payload rest =>
    unfold Spreading.Progress at hprogress ⊢
    rw [haddr, hpeers]
    exact hprogress
  | failed => exact hprogress

/-- A turn may launch broadcasts, and then their goroutines are started. -/
theorem turned (h : n.Spreads C t done) (hmails : n.node.Mails s.node) :
    (n.turned s).Spreads C t done := by
  obtain ⟨new, hnew⟩ := hmails.launched
  have hdrop : s.node.launched.drop n.node.launched.length = new := by
    rw [← hnew, List.drop_left]
  have hspreading : (n.turned s).spreading = n.spreading ++ new.map Spreading.launched := by
    show n.spreading ++ (s.node.launched.drop _).map _ = _
    rw [hdrop]
  have hlength : (n.turned s).spreading.length = s.node.launched.length := by
    rw [hspreading, ← hnew, List.length_append, List.length_append, List.length_map, h.length]
  refine ⟨hlength, fun i hi => h.idle i ?_, fun i g m hg hm => ?_⟩
  · rw [hspreading, List.length_append] at hi
    exact (Nat.le_add_right _ _).trans hi
  · change s.node.launched[i]? = some m at hm
    rw [hspreading] at hg
    rw [← hnew] at hm
    have hgob : (n.turned s).node.gobId = n.node.gobId := hmails.server.gobId
    rw [hgob]
    by_cases hi : i < n.spreading.length
    · rw [List.getElem?_append_left hi] at hg
      rw [List.getElem?_append_left (h.length ▸ hi)] at hm
      exact h.progress i g m hg hm
    · have hle := Nat.le_of_not_lt hi
      rw [List.getElem?_append_right hle, List.getElem?_map] at hg
      rw [List.getElem?_append_right (h.length ▸ hle), ← h.length] at hm
      rw [hm] at hg
      obtain rfl := Option.some.inj hg
      exact ⟨rfl, h.idle i hle⟩

/-- One of the goroutines goes on. -/
theorem set (h : n.Spreads C t done) {i : ℕ} {g g' : Spreading κ}
    (hg : n.spreading[i]? = some g) (hothers : ∀ j, j ≠ i → done' j = done j)
    (hg' : ∀ m, g.Progress C t n.node.gobId m (done i) →
      g'.Progress C t n.node.gobId m (done' i)) :
    ({ n with spreading := n.spreading.set i g' } : LocalNode κ E S).Spreads C t done' := by
  have hlt : i < n.spreading.length := (List.getElem?_eq_some_iff.mp hg).1
  refine ⟨?_, fun j hj => ?_, fun j x m hx hm => ?_⟩
  · exact List.length_set.trans h.length
  · change (n.spreading.set i g').length ≤ j at hj
    rw [List.length_set] at hj
    rw [hothers j (hlt.trans_le hj).ne']
    exact h.idle j hj
  · change (n.spreading.set i g')[j]? = some x at hx
    by_cases heq : j = i
    · subst heq
      rw [List.getElem?_set_self hlt] at hx
      obtain rfl := Option.some.inj hx
      exact hg' m (h.progress j g m hg hm)
    · rw [List.getElem?_set_ne (Ne.symm heq)] at hx
      rw [hothers j heq]
      exact h.progress j x m hx hm

end LocalNode.Spreads

end Broadcasts

namespace LocalNet

variable {κ E S : Type} [DecidableEq κ] {net net' : LocalNet κ E S} {P : Primitives}
  [ConsensusEngine P E] [SealingEngine P E] [Storage P S] {C : Codecs} {e : LocalEvent κ}
  {tr : Traffic κ}

/-- What the goroutine of a broadcast puts into the channels. -/
def spreadBy (k : κ) (i : ℕ) : LocalEvent κ × Traffic κ → List (κ × RPC)
  | (.spread k' i', tr) => if k' = k ∧ i' = i then tr.put else []
  | _ => []

omit [DecidableEq κ] in
/-- The peer that is next in the loop of `Broadcast` is there. -/
theorem lookup_of_progress (hlinked : LocalTransport.Linked net.transports) {k j : κ} {gobId : ℕ}
    {m : Broadcast} {done : List (κ × RPC)} {payload : List (Gob.Frame Message)} {rest : List κ}
    (hprogress : (Spreading.sending payload (j :: rest)).Progress C (net.transports k) gobId m
      done) : (net.transports k).peers.lookup (net.transports j).addr = some j := by
  obtain ⟨msg, order, -, -, -, -, hall⟩ := hprogress
  have hmem : (j, (⟨(net.transports k).addr, payload⟩ : RPC)) ∈
      (order.filterMap (net.transports k).peers.lookup).map
        fun j => (j, ⟨(net.transports k).addr, payload⟩) := by
    rw [← hall]
    exact List.mem_append_right _ List.mem_cons_self
  obtain ⟨j', hj', heq⟩ := List.mem_map.mp hmem
  obtain rfl := (Prod.mk.inj heq).1
  obtain ⟨addr, -, hpeer⟩ := List.mem_filterMap.mp hj'
  rw [hlinked k addr j' hpeer]
  exact hpeer

/-- **One event of a broadcast.** -/
theorem Step.spreads (hstep : Step P C net e tr net')
    (hlinked : LocalTransport.Linked net.transports) {done : κ → ℕ → List (κ × RPC)}
    (hold : ∀ k, (net.nodes k).Spreads C (net.transports k) (done k)) :
    ∀ k, (net'.nodes k).Spreads C (net'.transports k)
      fun i => done k i ++ spreadBy k i (e, tr) := by
  suffices hlinks : ∀ k, (net'.nodes k).Spreads C (net.transports k)
      fun i => done k i ++ spreadBy k i (e, tr) from
    fun k => (hlinks k).congr (hstep.sameLinks k).1 (hstep.sameLinks k).2
  let Q : κ → LocalNode κ E S → Prop := fun k n =>
    n.Spreads C (net.transports k) fun i => done k i ++ spreadBy k i (e, tr)
  have hone : ∀ {ts : κ → LocalTransport κ} {k : κ} {n : LocalNode κ E S},
      (∀ j i, j ≠ k → spreadBy j i (e, tr) = []) → Q k n →
      ∀ j, Q j (((net.withTransports ts).withNode k n).nodes j) := by
    intro ts k n hothers hn j
    by_cases heq : j = k
    · subst heq
      rwa [withNode_self]
    · rw [withNode_of_ne n heq]
      show (net.nodes j).Spreads C (net.transports j) _
      simp only [hothers j _ heq, List.append_nil]
      exact hold j
  -- outside the loop of `Broadcast` nothing is put
  have hquiet : ∀ {k : κ} {n : LocalNode κ E S}, (∀ i, spreadBy k i (e, tr) = []) →
      n.Spreads C (net.transports k) (done k) → Q k n := by
    intro k n hnone hn
    show n.Spreads C (net.transports k) _
    simp only [hnone, List.append_nil]
    exact hn
  cases hstep with
  | @work k _ _ _ aside call =>
    refine hone (fun _ _ _ => rfl) (hquiet (fun _ => rfl) ((hold k).turned (call.mails ?_)))
    rintro addr tr rfl
    exact aside.elim
  | @handle k _ _ _ _ call =>
    have hturned := (hold k).turned (call.mails nofun)
    exact hone (fun _ _ _ => rfl) (hquiet (fun _ => rfl)
      ⟨hturned.length, hturned.idle, hturned.progress⟩)
  | @accept k _ _ _ _ _ _ _ _ call _ =>
    have hturned := (hold k).turned (call.mails nofun)
    exact hone (fun _ _ _ => rfl) (hquiet (fun _ => rfl)
      ⟨hturned.length, hturned.idle, hturned.progress⟩)
  | @encode k i m order started once all =>
    refine hone (fun _ _ _ => rfl) (hquiet (fun _ => rfl) ((hold k).set started
      (fun _ _ => rfl) ?_))
    rintro m' ⟨rfl, hnone⟩
    unfold Broadcast.spread
    split
    · rename_i msg hmsg
      refine ⟨msg, order, hmsg, rfl, once, all, ?_⟩
      rw [hnone, List.nil_append]
    · exact hnone
  | @spread k j i payload rest o ts waiting call returns =>
    refine hone (fun k' _ hne => if_neg fun heq => hne heq.1.symm) ?_
    refine (hold k).set waiting (fun i' hne => ?_) fun m hprogress => ?_
    · show done k i' ++ (if k = k ∧ i = i' then _ else _) = _
      rw [if_neg fun heq => hne heq.2.symm, List.append_nil]
    · have hpeer := lookup_of_progress hlinked hprogress
      have hok : o = .ok () := by
        unfold LocalTransport.sendMessage at call
        rw [hpeer] at call
        simp only at call
        split at call
        · exact (Prod.mk.inj call).1.symm
        · rw [← (Prod.mk.inj call).1] at returns
          exact returns.elim
      obtain ⟨msg, order, hmsg, hpayload, honce, hcover, hall⟩ := hprogress
      rw [if_pos hok]
      refine ⟨msg, order, hmsg, hpayload, honce, hcover, ?_⟩
      show done k i ++ (if k = k ∧ i = i then
        LocalTransport.addressed net.transports k (net.transports j).addr payload else []) ++ _ = _
      rw [if_pos ⟨rfl, rfl⟩, LocalTransport.addressed_of_lookup hpeer, ← hall, List.append_assoc]
      rfl
  | @mail k _ _ _ _ _ _ _ =>
    exact hone (fun _ _ _ => rfl) (hquiet (fun _ => rfl)
      ⟨(hold k).length, (hold k).idle, (hold k).progress⟩)
  | @relay k _ _ _ _ =>
    exact hone (fun _ _ _ => rfl) (hquiet (fun _ => rfl)
      ⟨(hold k).length, (hold k).idle, (hold k).progress⟩)
  | @hand k _ _ _ _ _ =>
    exact hone (fun _ _ _ => rfl) (hquiet (fun _ => rfl)
      ⟨(hold k).length, (hold k).idle, (hold k).progress⟩)

/-- **Gossip.** The goroutine of a broadcast puts the message into the channels of the peers, into
each at most once, and when its loop is over into each of them. -/
theorem broadcast_reaches {es : List (LocalEvent κ × Traffic κ)} (hstart : Started P net)
    (hrun : History (Step P C) net es net') {k : κ} {i : ℕ} {m : Broadcast}
    (hm : (net'.nodes k).node.launched[i]? = some m) :
    ((es.flatMap (spreadBy k i)).map Prod.fst).Nodup ∧
      (∀ x ∈ es.flatMap (spreadBy k i),
        (∃ addr, (net.transports k).peers.lookup addr = some x.1) ∧ ∃ msg, m.message C = .ok msg ∧
          x.2 = ⟨(net.transports k).addr, msg.bytes (net'.nodes k).node.gobId⟩) ∧
      ∀ payload, (net'.nodes k).spreading[i]? = some (.sending payload []) →
        ∀ addr j, (net.transports k).peers.lookup addr = some j →
          j ∈ (es.flatMap (spreadBy k i)).map Prod.fst := by
  have hspreads : (net'.nodes k).Spreads C (net'.transports k)
      fun i => es.flatMap (spreadBy k i) := by
    refine hrun.recorded (fun es net' => ∀ k, (net'.nodes k).Spreads C (net'.transports k)
      fun i => es.flatMap (spreadBy k i)) (fun k => ?_) ?_ k
    · obtain ⟨n, hn, -, hlaunched, -⟩ := hstart.node k
      rw [hn]
      refine ⟨(congrArg List.length hlaunched).symm, fun _ _ => rfl, fun i g m hg => ?_⟩
      exact absurd hg (by simp [LocalNode.start])
    · intro es mid i o next hpast hmid hstep j
      have hnext := hstep.spreads (linked_of_run hstart hpast).1 hmid j
      simp only [List.flatMap_append, List.flatMap_singleton]
      exact hnext
  obtain ⟨hlinked, hsame⟩ := linked_of_run hstart hrun
  replace hspreads := hspreads.congr (hsame k).1.symm (hsame k).2.symm
  obtain ⟨g, hg⟩ : ∃ g, (net'.nodes k).spreading[i]? = some g := by
    rw [← Option.isSome_iff_exists, isSome_getElem?, hspreads.length]
    exact (List.getElem?_eq_some_iff.mp hm).1
  have hprogress := hspreads.progress i g m hg hm
  cases g with
  | launched m' =>
    obtain ⟨-, hnone : es.flatMap (spreadBy k i) = []⟩ := hprogress
    rw [hnone]
    exact ⟨List.nodup_nil, fun _ hx => absurd hx List.not_mem_nil,
      fun _ hsending => nomatch hg.symm.trans hsending⟩
  | failed =>
    have hnone : es.flatMap (spreadBy k i) = [] := hprogress
    rw [hnone]
    exact ⟨List.nodup_nil, fun _ hx => absurd hx List.not_mem_nil,
      fun _ hsending => nomatch hg.symm.trans hsending⟩
  | sending payload rest =>
    obtain ⟨msg, order, hmsg, rfl, honce, hcover, hall⟩ := hprogress
    have hpeers := fst_of_progress hall
    refine ⟨?_, fun x hx => ?_, fun payload' hsending addr j hpeer => ?_⟩
    · -- the peers are entered under different addresses, so they are different
      have hnodup : (order.filterMap (net.transports k).peers.lookup).Nodup := by
        refine List.Nodup.filterMap (fun a a' j hj hj' => ?_) honce
        rw [← hstart.linked.1 k a j hj, ← hstart.linked.1 k a' j hj']
      rw [← hpeers] at hnodup
      exact hnodup.of_append_left
    · have hmem : x ∈ (order.filterMap (net.transports k).peers.lookup).map fun j =>
          (j, ⟨(net.transports k).addr, msg.bytes (net'.nodes k).node.gobId⟩) := by
        rw [← hall]
        exact List.mem_append_left _ hx
      obtain ⟨j, hj, rfl⟩ := List.mem_map.mp hmem
      obtain ⟨addr, -, hpeer⟩ := List.mem_filterMap.mp hj
      exact ⟨⟨addr, hpeer⟩, msg, hmsg, rfl⟩
    · -- the loop is over, so no peer is left
      obtain ⟨-, rfl⟩ := Spreading.sending.inj (Option.some.inj (hg.symm.trans hsending))
      rw [List.append_nil] at hpeers
      rw [hpeers]
      refine List.mem_filterMap.mpr ⟨addr, (hcover addr).mpr ?_, hpeer⟩
      exact Finmap.mem_iff.mpr ⟨j, hpeer⟩

/-- The theorem for a server with one peer. -/
theorem broadcast_reaches_pair : ∃ (es : List (LocalEvent Bool × Traffic Bool))
    (net' : LocalNet Bool PoWEngine MemoryStore),
    History (Step .sample oneTransfer) pairNet es net' ∧
      ((es.flatMap (spreadBy true 0)).map Prod.fst).Nodup ∧
      false ∈ (es.flatMap (spreadBy true 0)).map Prod.fst := by
  obtain ⟨payload, es, net', hrun, hlaunched, hspreading, -⟩ := exists_pairRun
  have hm : (net'.nodes true).node.launched[0]? =
      some (.transaction ((sampleTransfer 0 0).seenAt .sample 0)) := by
    rw [hlaunched]
    rfl
  have hover : (net'.nodes true).spreading[0]? = some (.sending payload []) := by
    rw [hspreading]
    rfl
  obtain ⟨honce, -, hall⟩ := broadcast_reaches started_pairNet hrun hm
  exact ⟨es, net', hrun, honce, hall payload hover "B" false lookup_pairTransports⟩

end LocalNet

end Blockz
