import Blockz.Network.Agreement

/-!
# Where transactions come from

A transaction enters the network by a call of `ProcessTransaction` on one of the processes. It is
then broadcast, put into pools, into blocks, and into the answers to requests for blocks, by any
number of processes of which any number make blocks. None of them makes one up.

* `Marking.submitted` — the transaction was given to `ProcessTransaction` in the run.
* `transactions_submitted` — this holds of every transaction that a process has pending, or in a
  block that it returns for a height.
-/

namespace Blockz

open Effect

variable {E S : Type} {P : Primitives} [ConsensusEngine P E] {C : Codecs} {κ : Type}

/-- The transaction was submitted to one of the processes, up to what is not exported; and so was
every transaction of the block. -/
def Marking.submitted (es : List ((κ × Turn) × Outcome Err Unit)) : Marking where
  transaction tx := ∃ k id tx₀ o, ((k, .submit id tx₀), o) ∈ es ∧ tx₀.exported = tx.exported
  block b := ∀ tx ∈ b.transactions, ∃ k id tx₀ o, ((k, .submit id tx₀), o) ∈ es ∧
    tx₀.exported = tx.exported
  transaction_congr := by
    rintro tx tx' hexp ⟨k, id, tx₀, o, hmem, heq⟩
    exact ⟨k, id, tx₀, o, hmem, heq.trans hexp.symm⟩
  block_congr := by
    intro b b' hexp hb tx hmem
    obtain ⟨tx', hmem', heq⟩ := Block.exists_mem_of_exported hexp hmem
    obtain ⟨k, id, tx₀, o, hsub, hsame⟩ := hb tx' hmem'
    exact ⟨k, id, tx₀, o, hsub, hsame.trans heq⟩

/-- What was submitted before was submitted. -/
theorem Marking.submitted_mono (es : List ((κ × Turn) × Outcome Err Unit))
    (e : (κ × Turn) × Outcome Err Unit) :
    (Marking.submitted es).Implies (.submitted (es ++ [e])) := by
  have hone : ∀ tx, (Marking.submitted es).transaction tx →
      (Marking.submitted (es ++ [e])).transaction tx := by
    rintro tx ⟨k, id, tx₀, o, hmem, heq⟩
    exact ⟨k, id, tx₀, o, List.mem_append_left _ hmem, heq⟩
  exact ⟨fun b hb tx hmem => hone tx (hb tx hmem), hone⟩

variable [SealingEngine P E] [Storage P S] [FaithfulStorage P S]

/-- **No transaction out of nothing.** Any number of new processes, of which any number have keys.
In every run, however their goroutines interleave and whatever is lost, repeated or reordered
between them, a transaction that is pending on a process, or in a block that it returns for a
height, was submitted to one of the processes before. -/
theorem transactions_submitted [DecidableEq κ] (hC : C.Faithful) {c₀ c : κ → Process E S}
    {es : List ((κ × Turn) × Outcome Err Unit)} (hnew : Started P c₀)
    (hrun : History (Swarm (Process.Step P C) (Arrives C)) c₀ es c) (k : κ) {tx : Transaction}
    (htx : tx ∈ (c k).node.memPool.pending.txx ∨
      ∃ i b, (c k).node.chain.getBlock P i = .ok b ∧ tx ∈ b.transactions) :
    ∃ j id tx₀ o, ((j, .submit id tx₀), o) ∈ es ∧ tx₀.exported = tx.exported := by
  have hall : ∀ k, (c k).Marked P C (.submitted es) := by
    refine Swarm.each (I := fun _ es s => s.Marked P C (.submitted es)) hrun ?_ ?_ ?_
    · intro k
      obtain ⟨fuel, opts, n, hn, hk, hempty⟩ := hnew k
      obtain ⟨-, -, hstored, -⟩ := Node.newServer_of_empty hempty hn
      rw [hk]
      refine .of_newServer hn fun i b hget => ?_
      -- the genesis block has no transactions
      refine (Marking.submitted []).block_congr (hstored i b hget) fun tx hmem => ?_
      exact absurd hmem List.not_mem_nil
    · exact fun _ es e s hs => hs.mono (Marking.submitted_mono es e)
    · intro es c k t o s' hc harrives hstep
      have hK := Marking.submitted_mono es ((k, t), o)
      have hs := (hc k).mono hK
      refine hs.step hC hstep (fun moment msg ht => (harrives.marked hC hc moment msg ht).mono hK)
        (fun id tx ht => ?_) fun b hsigned _ _ => ?_
      · exact ⟨k, id, tx, o, by rw [ht]; exact List.mem_append_right _ List.mem_cons_self, rfl⟩
      · have hproducer := hs.producer
        rwa [hsigned] at hproducer
  rcases htx with hpending | ⟨i, b, hget, hmem⟩
  · exact (hall k).node.pending tx hpending
  · exact (hall k).node.stored i b hget tx hmem

/-! ### A transaction that travels -/

section Sample

omit [FaithfulStorage P S] in
theorem Process.Step.advance_ok {s : Process E S} {id : ℕ} {now : Int64} {c : Call}
    {next : Option Call} {n' : Node E S} (running : s.calls id = some c)
    (call : c.step P now s.node = (.ok next, n')) :
    Step P C s (.advance id now) (.ok ())
      { s with node := n', calls := Function.update s.calls id next } :=
  .advance running call trivial

/-- `ProcessTransaction` is called and returns. -/
def submissionTurns (tx : Transaction) : List (Turn × Outcome Err Unit) :=
  (.submit 0 tx, .ok ()) :: List.replicate 6 (.advance 0 0, .ok ())

/-- The transaction comes in from a peer, and `ProcessTransaction` is called on it. -/
def gossipTurns (tx : Transaction) : List (Turn × Outcome Err Unit) :=
  (.receive Node.sampleMoment ⟨"B", .transaction tx⟩, .ok ()) ::
    List.replicate 6 (.handle 0, .ok ())

/-- A transfer is submitted to a node without a key, and is then pending on the validator. -/
theorem transactions_submitted_pair : ∃ (C : Codecs)
    (es : List ((Bool × Turn) × Outcome Err Unit)) (c : Bool → Process PoWEngine MemoryStore)
    (tx : Transaction), History (Swarm (Process.Step .sample C) (Arrives C)) pairStart es c ∧
      tx ∈ (c true).node.memPool.pending.txx ∧
      ∃ j id tx₀ o, ((j, .submit id tx₀), o) ∈ es ∧ tx₀.exported = tx.exported := by
  obtain ⟨C, hC, -, htransaction, -⟩ := Codecs.exists_faithful
  obtain ⟨data, hencode, hdecode⟩ := htransaction ((sampleTransfer 0 0).seenAt .sample 0)
  obtain ⟨s, hs, hlaunched⟩ : ∃ s, History (Process.Step .sample C) (pairStart false)
      (submissionTurns (sampleTransfer 0 0)) s ∧
        s.node.launched = [.transaction ((sampleTransfer 0 0).seenAt .sample 0)] :=
    ⟨_, .cons (.submit rfl) <| .cons (.advance_ok rfl rfl) <| .cons (.advance_ok rfl rfl) <|
      .cons (.advance_ok rfl rfl) <| .cons (.advance_ok rfl rfl) <| .cons (.advance_ok rfl rfl) <|
      .cons (.advance_ok rfl rfl) .start, rfl⟩
  obtain ⟨t, ht, hpending⟩ : ∃ t, History (Process.Step .sample C) (pairStart true)
      (gossipTurns (sampleTransfer 0 0).exported) t ∧
        t.node.memPool.pending.txx = [(sampleTransfer 0 0).seenAt .sample 0] :=
    ⟨_, .cons (.receive rfl rfl trivial) <| .cons (.handle_ok 0 0 rfl) <|
      .cons (.handle_ok 0 0 rfl) <| .cons (.handle_ok 0 0 rfl) <| .cons (.handle_ok 0 0 rfl) <|
      .cons (.handle_ok 0 0 rfl) <| .cons (.handle_ok 0 0 rfl) .start, rfl⟩
  -- first the one, then the other
  have hcalls : ∀ s', ∀ e ∈ submissionTurns (sampleTransfer 0 0),
      Arrives C (Function.update pairStart false s') false e.1 := by
    intro s' e he
    rcases List.mem_cons.mp he with rfl | he
    · trivial
    · rw [List.eq_of_mem_replicate he]
      trivial
  have hother : Function.update pairStart false s true = pairStart true :=
    Function.update_of_ne Bool.false_ne_true.symm _ _
  rw [← hother] at ht
  have hmem : Broadcast.transaction ((sampleTransfer 0 0).seenAt .sample 0) ∈ s.node.launched := by
    rw [hlaunched]
    exact List.mem_singleton_self _
  have hmessage : (Broadcast.transaction ((sampleTransfer 0 0).seenAt .sample 0)).message C =
      .ok (newMessage .tx data) := by
    show (C.transaction.encode _ >>= fun data => .ok (newMessage .tx data)) = _
    rw [hencode]
    rfl
  have hreceived : ∀ t', ∀ e ∈ gossipTurns (sampleTransfer 0 0).exported,
      Arrives C (Function.update (Function.update pairStart false s) true t') true e.1 := by
    intro t' e he
    rcases List.mem_cons.mp he with rfl | he
    · refine .of_broadcast (j := false) hmem hmessage ?_ _ _
      unfold Codecs.decode
      rw [hdecode]
      rfl
    · rw [List.eq_of_mem_replicate he]
      trivial
  have hrun := (Swarm.alone hs hcalls).append (Swarm.alone ht hreceived)
  have hthere : (sampleTransfer 0 0).seenAt .sample 0 ∈ (Function.update
      (Function.update pairStart false s) true t true).node.memPool.pending.txx := by
    show _ ∈ t.node.memPool.pending.txx
    rw [hpending]
    exact List.mem_singleton_self _
  exact ⟨C, _, _, _, hrun, hthere,
    transactions_submitted hC launched_pairStart.started hrun true (Or.inl hthere)⟩

end Sample

end Blockz
