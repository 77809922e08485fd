import Blockz.Main.Generator
import Blockz.Network.Provenance
import Blockz.Network.Replication

/-!
# Traffic that cannot stop a producer

A transaction that fails keeps its block off the chain, and it stays pending. Transactions that
cannot fail do no such harm: if everything that is submitted verifies and executes in every world
state, every block that the producer signs is accepted by its chain.

The assumption of `Replication`, that no call of `createNewBlock` fails, is then not needed. A call
may still fail to seal or to sign its block, and leaves everything as it was.

* `Feeds` — what comes from outside the network is tame.
* `Production.Fresh` — the block that `createNewBlock` is about was made for the chain as it is.
* `tame_traffic` — in every run of such a network the producer's next block is accepted, and the
  processes are replicas of the producer.
-/

namespace Blockz

open Effect

variable {P : Primitives} {C : Codecs}

/-! ### What comes in -/

/-- All transactions are tame. -/
def Marking.tame (P : Primitives) : Marking where
  transaction tx := tx.Tame P
  block b := ∀ tx ∈ b.transactions, tx.Tame P
  transaction_congr hexp htx := htx.congr hexp
  block_congr := by
    intro b b' hexp hb tx hmem
    obtain ⟨tx', hmem', heq⟩ := Block.exists_mem_of_exported hexp hmem
    exact (hb tx' hmem').congr heq.symm

section Feeds

variable {E S κ : Type}

/-- What comes from outside is a tame transaction: one that is submitted, or one that a stranger
sends. The rest is from the processes themselves. -/
def Feeds (P : Primitives) (C : Codecs) (c : κ → Process E S) (k : κ) : Turn → Prop
  | .submit _ tx => tx.Tame P
  | .receive moment msg => Arrives C c k (.receive moment msg) ∨
      ∃ tx, msg.data = .transaction tx ∧ tx.Tame P
  | _ => True

/-- A marking of the processes that tame transactions have is one of what they receive. -/
theorem Feeds.marked [Storage P S] {K : Marking} (hC : C.Faithful) {c : κ → Process E S} {k : κ}
    {t : Turn} (hfeeds : Feeds P C c k t) (hc : ∀ k, (c k).Marked P C K)
    (hK : ∀ tx : Transaction, tx.Tame P → K.transaction tx) :
    ∀ moment msg, t = .receive moment msg → msg.data.Marked K := by
  rintro moment msg rfl
  rcases hfeeds with harrives | ⟨tx, hdata, htame⟩
  · exact harrives.marked hC hc moment msg rfl
  · rw [hdata]
    exact hK tx htame

end Feeds

/-! ### The block that is being made -/

section Fresh

variable {E S : Type} [SealingEngine P E]

/-- The header that was read is the last one, and the block was made on it. -/
def Production.Fresh (P : Primitives) [SealingEngine P E] (bc : Blockchain E S) :
    Production → Prop
  | .headerRead h => bc.getHeaderLocked bc.heightLocked = .ok h
  | .pendingRead h _ => bc.getHeaderLocked bc.heightLocked = .ok h
  | .signed b => ∃ key txx tick, bc.assembleBlock P key txx tick = .ok b
  | _ => True

variable [ConsensusEngine P E] [Storage P S]

/-- A step of `createNewBlock`, however it ends. -/
theorem Production.Fresh.step {p : Production} {fuel : ℕ} {key : PrivateKey} {tick : Tick}
    {n n' : Node E S} {o : Outcome Err Production} (h : p.Fresh P n.chain)
    (hcall : p.step P fuel key tick n = (o, n')) :
    (o.toOption.getD .idle).Fresh P n'.chain := by
  cases o with
  | err e => trivial
  | panic e => trivial
  | outOfFuel => trivial
  | ok p' =>
    show p'.Fresh P n'.chain
    cases p with
    | idle =>
      obtain ⟨current, hread, hend⟩ := Act.lift_bind_eq_ok.mp hcall
      cases hend
      exact hread
    | headerRead current =>
      cases hcall
      exact h
    | pendingRead current txx =>
      obtain ⟨b, hbuild, hend⟩ := Act.lift_bind_eq_ok.mp hcall
      cases hend
      refine ⟨key, txx, tick, ?_⟩
      rw [Blockchain.assembleBlock, h, Outcome.bind_ok, hbuild]
    | signed b =>
      obtain ⟨_, n₁, -, hend⟩ := Act.bind_eq_ok.mp hcall
      cases hend
      trivial
    | added b =>
      cases hcall
      trivial

end Fresh

/-! ### Acceptance -/

/-- The engine can weigh the blocks that it seals. -/
structure Blockchain.Weighs (bc : Blockchain PoWEngine MemoryStore) : Prop where
  total : bc.totalDifficulty.isSome = true
  difficulty : ∀ pow, bc.consensus = some pow → pow.targetDifficulty.toNat ≤ 256

theorem Blockchain.Weighs.called {bc bc' : Blockchain PoWEngine MemoryStore} {b : Block}
    {o : Outcome Err Unit} (h : bc.Weighs) (hcall : Called P bc b o bc') : bc'.Weighs := by
  have hused : Used P bc (.addBlock b) o bc' := hcall
  obtain ⟨fuel, hadd⟩ := hcall
  refine ⟨?_, fun pow hpow => h.difficulty pow ?_⟩
  · rw [hused.isSome_totalDifficulty, h.total]
  · rw [← hpow, (AddStep.of_call hadd).consensus_eq]

/-- **A block of tame transactions is accepted** by the chain that it was made for. -/
theorem Blockchain.accepts_fresh (hP : P.CorrectSignature)
    {bc : Blockchain PoWEngine MemoryStore} (hrooted : Rooted P bc)
    (hroom : bc.headers.length < 2 ^ 32) (hweighs : bc.Weighs) {b : Block}
    (hfresh : (Production.signed b).Fresh P bc) (htame : ∀ tx ∈ b.transactions, tx.Tame P) :
    ∃ fuel bc', addBlock P fuel b bc = (.ok (), bc') := by
  obtain ⟨key, txx, tick, hassemble⟩ := hfresh
  obtain ⟨current, h, hassembled⟩ := assembleBlock_spec hassemble
  rw [hassembled.transactions] at htame
  obtain ⟨fuel, hexec⟩ := executeTransactions_of_tame htame bc.worldState
  obtain ⟨ws', hok⟩ := hexec fuel le_rfl
  have hexecuted : ∃ fuel, (executeTransactions P fuel txx bc.worldState).1 = .ok () :=
    ⟨fuel, by rw [hok]⟩
  obtain ⟨fuel', hadd⟩ := (addBlock_assembled_iff .pow hassembled hP
    hrooted.reached.grounded.tip fun tx htx => (htame tx htx).verified).mpr
      ⟨hroom, hexecuted, fun pow hpow => ⟨hweighs.total, _, rfl, hweighs.difficulty pow hpow⟩⟩
  exact ⟨fuel', _, Act.eq_mk_of_fst hadd⟩

/-- A call that has come back has done what one that succeeds does. -/
theorem Blockchain.addBlock_of_ends {fuel fuel' : ℕ} {b : Block}
    {bc bc' : Blockchain PoWEngine MemoryStore} (hok : addBlock P fuel' b bc = (.ok (), bc'))
    (hends : (addBlock P fuel b bc).1 ≠ .outOfFuel) : addBlock P fuel b bc = (.ok (), bc') := by
  -- with more rounds for the machine, both calls are the same
  have hlater := addBlock_extends (Nat.le_max_left fuel fuel') b bc hends
  rw [← hlater]
  exact addBlock_ok_of_le (Nat.le_max_right fuel fuel') hok

/-- If the chain accepts the block of `createNewBlock`, the call goes on. -/
theorem Process.Step.clean_of_accepts {s s' : Process PoWEngine MemoryStore} {t : Turn}
    {o : Outcome Err Unit} (hstep : Process.Step P C s t o s')
    (haccepts : ∀ b, s.producer = .signed b →
      ∃ fuel bc', Blockchain.addBlock P fuel b s.node.chain = (.ok (), bc')) :
    Process.Clean P C s t o s' := by
  refine ⟨hstep, fun tick b ht hb => ?_⟩
  subst ht
  obtain ⟨fuel', bc', hok⟩ := haccepts b hb
  cases hstep with
  | @produce _ key fuel r n' held call returns =>
    rw [hb] at call
    have hends : (Blockchain.addBlock P fuel b s.node.chain).1 ≠ .outOfFuel := by
      intro hout
      have hchain : Node.onChain (Blockchain.addBlock P fuel b) s.node = (.outOfFuel, _) :=
        Act.eq_mk_of_fst hout
      have hcall : Production.step P fuel key tick (.signed b) s.node = (.outOfFuel, _) :=
        Act.bind_apply_outOfFuel hchain _
      obtain ⟨rfl, -⟩ := Prod.mk.inj (call.symm.trans hcall)
      exact (Outcome.returns_iff.mp returns).2 rfl
    have hchain := Node.onChain_apply (Blockchain.addBlock_of_ends hok hends)
    have hcall : Production.step P fuel key tick (.signed b) s.node = (.ok (.added b), _) :=
      Act.bind_apply_ok hchain _
    obtain ⟨rfl, -⟩ := Prod.mk.inj (call.symm.trans hcall)
    rfl

/-! ### The network -/

/-- What holds of the producer and another process. If the heights are not used up, the other one
trails, and the producer's next block fits. -/
structure Flows (P : Primitives) (C : Codecs) (bc₀ : Blockchain PoWEngine MemoryStore)
    (producer s : Process PoWEngine MemoryStore) : Prop where
  tame : s.Marked P C (.tame P)
  rooted : Rooted P producer.node.chain
  weighs : producer.node.chain.Weighs
  trails : producer.node.chain.headers.length < 2 ^ 32 → Trails P C bc₀ producer s ∧
    producer.producer.Fresh P producer.node.chain

/-- The validator loop is at its place until its own next turn. -/
theorem Process.Step.producer_eq {s s' : Process PoWEngine MemoryStore} {t : Turn}
    {o : Outcome Err Unit} (hstep : Process.Step P C s t o s') (hturn : ∀ tick, t ≠ .produce tick) :
    s'.producer = s.producer := by
  cases hstep with
  | produce _ _ _ => exact absurd rfl (hturn _)
  | _ => rfl

/-- What `createNewBlock` has read stays right: the chain changes by its own blocks. -/
theorem Trails.fresh {bc₀ : Blockchain PoWEngine MemoryStore}
    {s s' : Process PoWEngine MemoryStore} {t : Turn} {o : Outcome Err Unit}
    (hs : Trails P C bc₀ s s) (hstep : Process.Clean P C s t o s')
    (hfresh : s.producer.Fresh P s.node.chain) : s'.producer.Fresh P s'.node.chain := by
  by_cases hturn : ∃ tick, t = .produce tick
  · obtain ⟨tick, rfl⟩ := hturn
    cases hstep.step with
    | produce _ call _ => exact hfresh.step call
  · rcases hs.chain_cases hstep with hsame | ⟨tick, _, ht, -⟩
    · rw [hsame, hstep.step.producer_eq fun tick ht => hturn ⟨tick, ht⟩]
      exact hfresh
    · exact absurd ⟨tick, ht⟩ hturn

/-- The producer's next block is accepted. -/
theorem Flows.accepts (hP : P.CorrectSignature) {bc₀ : Blockchain PoWEngine MemoryStore}
    {s : Process PoWEngine MemoryStore} (h : Flows P C bc₀ s s)
    (hroom : s.node.chain.headers.length < 2 ^ 32) :
    ∀ b, s.producer = .signed b →
      ∃ fuel bc', Blockchain.addBlock P fuel b s.node.chain = (.ok (), bc') := by
  intro b hb
  obtain ⟨-, hfresh⟩ := h.trails hroom
  have hmarked := h.tame.producer
  rw [hb] at hfresh hmarked
  exact Blockchain.accepts_fresh hP h.rooted hroom h.weighs hfresh hmarked

section Step

variable {κ : Type} {v : κ} {bc₀ : Blockchain PoWEngine MemoryStore}
  {c : κ → Process PoWEngine MemoryStore} {t : Turn} {o : Outcome Err Unit}
  {s' : Process PoWEngine MemoryStore}

/-- A turn of any process keeps its transactions tame. -/
theorem Flows.tame_step (hC : C.Faithful) {k : κ} (hc : ∀ k, Flows P C bc₀ (c v) (c k))
    (hfeeds : Feeds P C c k t) (hstep : Process.Step P C (c k) t o s') :
    s'.Marked P C (.tame P) := by
  have hk := (hc k).tame
  refine hk.step hC hstep (hfeeds.marked hC (fun k => (hc k).tame) fun _ htx => htx) ?_ ?_
  · rintro id tx rfl
    exact hfeeds
  · intro b hb _ _
    have hmarked := hk.producer
    rwa [hb] at hmarked

/-- The producer takes a turn. -/
theorem Flows.lead (hC : C.Faithful) (hP : P.CorrectSignature)
    (hc : ∀ k, Flows P C bc₀ (c v) (c k)) (hfeeds : Feeds P C c v t)
    (hstep : Process.Step P C (c v) t o s') :
    Flows P C bc₀ s' s' ∧ ∀ k, k ≠ v → Flows P C bc₀ s' (c k) := by
  obtain ⟨hrooted, hext⟩ := hstep.extends (hc v).rooted
  have hweighs : s'.node.chain.Weighs := by
    rcases hstep.adds.chain with hsame | ⟨b, r, -, -, hcall⟩
    · rw [hsame]
      exact (hc v).weighs
    · exact (hc v).weighs.called hcall
  -- heights that are left now were left before, and the chain has not refused a block
  have hbefore : s'.node.chain.headers.length < 2 ^ 32 →
      (c v).node.chain.headers.length < 2 ^ 32 ∧ Process.Clean P C (c v) t o s' := by
    intro hroom
    have hless := hext.headers.length_le.trans_lt hroom
    exact ⟨hless, hstep.clean_of_accepts ((hc v).accepts hP hless)⟩
  refine ⟨⟨Flows.tame_step hC hc hfeeds hstep, hrooted, hweighs, fun hroom => ?_⟩,
    fun k _ => ⟨(hc k).tame, hrooted, hweighs, fun hroom => ?_⟩⟩
  · obtain ⟨hless, hclean⟩ := hbefore hroom
    obtain ⟨htrails, hfresh⟩ := (hc v).trails hless
    refine ⟨htrails.lead hC hclean ?_, htrails.fresh hclean hfresh⟩
    exact hfeeds.marked hC (fun k => ((hc k).trails hless).1.marked) fun _ _ => trivial
  · obtain ⟨hless, hclean⟩ := hbefore hroom
    obtain ⟨htrails, hfresh⟩ := (hc v).trails hless
    obtain ⟨es, hes⟩ := htrails.succeeds hclean
    exact ⟨((hc k).trails hless).1.mono hext hes, htrails.fresh hclean hfresh⟩

/-- Another process takes a turn. -/
theorem Flows.follow (hC : C.Faithful) {k : κ} (hgenesis : bc₀.headers.length = 1)
    (hc : ∀ k, Flows P C bc₀ (c v) (c k)) (hkey : (c k).node.privateKey = none)
    (hfeeds : Feeds P C c k t) (hstep : Process.Step P C (c k) t o s') :
    Flows P C bc₀ (c v) s' := by
  refine ⟨Flows.tame_step hC hc hfeeds hstep, (hc k).rooted, (hc k).weighs, fun hroom => ?_⟩
  obtain ⟨htrails, hfresh⟩ := (hc k).trails hroom
  refine ⟨htrails.follow hC hgenesis (hc k).rooted hkey hstep ?_, hfresh⟩
  exact hfeeds.marked hC (fun k => ((hc k).trails hroom).1.marked) fun _ _ => trivial

end Step

/-- New processes, with an engine that can weigh its blocks. -/
theorem Flows.of_deployed {κ : Type} [DecidableEq κ] (hC : C.Faithful) {v : κ}
    {c₀ : κ → Process PoWEngine MemoryStore} (hnew : Deployed P v c₀)
    (hengine : ∀ pow, (c₀ v).node.chain.consensus = some pow → pow.targetDifficulty.toNat ≤ 256)
    (k : κ) : Flows P C (c₀ v).node.chain (c₀ v) (c₀ k) := by
  obtain ⟨-, hall⟩ := trails_of_run hC hnew .start nofun
  obtain ⟨engine, hnew⟩ := hnew
  obtain ⟨fuel, opts, n, hn, hv, -⟩ := hnew v
  obtain ⟨fuel', opts', n', hn', hk, hstore', -⟩ := hnew k
  have htame : (c₀ k).Marked P C (.tame P) := by
    have hempty : ∀ i, ∃ e, Storage.get P opts'.storage i = .err e := by
      intro i
      rw [hstore']
      exact ⟨.blockNotFound i, rfl⟩
    obtain ⟨-, -, hstored, -⟩ := Node.newServer_of_empty hempty hn'
    rw [hk]
    refine .of_newServer hn' fun i b hget => ?_
    -- the genesis block has no transactions
    refine (Marking.tame P).block_congr (hstored i b hget) fun tx hmem => ?_
    exact absurd hmem List.not_mem_nil
  have htotal : (c₀ v).node.chain.totalDifficulty.isSome = true := by
    obtain ⟨bc, hbc, hmade⟩ := Outcome.bind_eq_ok.mp hn
    obtain rfl := Outcome.ok.inj hmade
    have hsome : bc.totalDifficulty.isSome = true := by
      rw [Blockchain.totalDifficulty_newBlockchain hbc]
      rfl
    rw [hv]
    -- installing an engine leaves the accumulator alone
    cases opts.consensus with
    | none => exact hsome
    | some e => exact hsome
  refine ⟨htame, (hall v).1.rooted, ⟨htotal, hengine⟩, fun _ => ⟨(hall k).1, ?_⟩⟩
  rw [hv]
  trivial

/-- The invariant over a run. -/
theorem flows_of_run {κ : Type} [DecidableEq κ] (hC : C.Faithful) (hP : P.CorrectSignature) {v : κ}
    {c₀ c : κ → Process PoWEngine MemoryStore} {es : List ((κ × Turn) × Outcome Err Unit)}
    (hnew : Deployed P v c₀)
    (hengine : ∀ pow, (c₀ v).node.chain.consensus = some pow → pow.targetDifficulty.toNat ≤ 256)
    (hrun : History (Swarm (Process.Step P C) (Feeds P C)) c₀ es c) :
    (c₀ v).node.chain.headers.length = 1 ∧ ∀ k, Flows P C (c₀ v).node.chain (c v) (c k) := by
  obtain ⟨hgenesis, hkeys⟩ := trails_of_run hC hnew .start nofun
  have hall : ∀ k, Flows P C (c₀ v).node.chain (c v) (c k) ∧
      (k ≠ v → (c k).node.privateKey = none) := by
    refine Swarm.led (v := v)
      (R := fun k s t => Flows P C (c₀ v).node.chain s t ∧ (k ≠ v → t.node.privateKey = none))
      hrun (fun k => ⟨.of_deployed hC hnew hengine k, (hkeys k).2⟩) ?_ ?_
    · intro c t o s' hc hfeeds hstep
      obtain ⟨hself, hothers⟩ := Flows.lead hC hP (fun k => (hc k).1) hfeeds hstep
      exact ⟨⟨hself, fun hne => absurd rfl hne⟩, fun k hne => ⟨hothers k hne, (hc k).2⟩⟩
    · intro c k t o s' hne hc hfeeds hstep
      refine ⟨Flows.follow hC hgenesis (fun k => (hc k).1) ((hc k).2 hne) hfeeds hstep, fun _ => ?_⟩
      exact hstep.adds.privateKey.trans ((hc k).2 hne)
  exact ⟨hgenesis, fun k => (hall k).1⟩

/-- **Tame traffic does not stop a producer.** A network of new processes on new stores, with the
same proof of work or none, of which one has a key. Whatever is submitted to them or sent to them
from outside verifies, and executes in every world state. Then, in every run, as long as there are
heights: a block that the producer has signed is accepted by its chain; the chain of each process is
a copy of a chain that the producer has had; and processes of the same height have copies of the
same chain. -/
theorem tame_traffic {κ : Type} [DecidableEq κ] (hC : C.Faithful) (hP : P.CorrectSignature) {v : κ}
    {c₀ c : κ → Process PoWEngine MemoryStore} {es : List ((κ × Turn) × Outcome Err Unit)}
    (hnew : Deployed P v c₀)
    (hengine : ∀ pow, (c₀ v).node.chain.consensus = some pow → pow.targetDifficulty.toNat ≤ 256)
    (hrun : History (Swarm (Process.Step P C) (Feeds P C)) c₀ es c)
    (hroom : (c v).node.chain.headers.length < 2 ^ 32) :
    (∀ b, (c v).producer = .signed b →
      ∃ fuel bc', Blockchain.addBlock P fuel b (c v).node.chain = (.ok (), bc')) ∧
    (∀ k, ∃ es₁ es₂ mid, History (Blockchain.Succeeded P) (c₀ v).node.chain es₁ mid ∧
      History (Blockchain.Succeeded P) mid es₂ (c v).node.chain ∧
      Blockchain.Mirrors mid (c k).node.chain) ∧
    ∀ j k, (c j).node.chain.headers.length = (c k).node.chain.headers.length →
      Blockchain.Mirrors (c j).node.chain (c k).node.chain := by
  obtain ⟨hgenesis, hall⟩ := flows_of_run hC hP hnew hengine hrun
  refine ⟨(hall v).accepts hP hroom, fun k => ?_, fun j k hlength => ?_⟩
  · obtain ⟨es₁, es₂, mid, h⟩ := ((hall k).trails hroom).1.copied
    exact ⟨es₁, es₂, mid, h.past, h.since, h.copy⟩
  · exact ((hall j).trails hroom).1.mirrors hgenesis ((hall k).trails hroom).1 hlength

/-! ### A transaction of the generator -/

/-- A call of `createNewBlock` up to the signed block. -/
def signingTurns (tick : Tick) : List (Turn × Outcome Err Unit) :=
  List.replicate 3 (.produce tick, .ok ())

theorem Process.exists_signing {s : Process PoWEngine MemoryStore} {key : PrivateKey}
    {current : Header} {tick : Tick} {b : Block} (hidle : s.producer = .idle)
    (hkey : s.node.privateKey = some key)
    (hread : s.node.chain.getHeaderLocked s.node.chain.heightLocked = .ok current)
    (hbuild : s.node.chain.buildBlock P key current s.node.memPool.pending.txx tick = .ok b) :
    ∃ s', History (Process.Step P C) s (signingTurns tick) s' ∧ s'.producer = .signed b ∧
      s'.node = s.node := by
  have hfirst : s.producer.step P 0 key tick s.node = (.ok (.headerRead current), s.node) := by
    rw [hidle, Production.step, Act.get_bind_apply, hread, Act.bind_apply_ok (Act.lift_apply _ _)]
    rfl
  exact ⟨_, .cons (.produce_ok tick 0 hkey hfirst) <| .cons (.produce_ok tick 0 hkey rfl) <|
    .cons (.produce_ok tick 0 hkey (Threads.production_signs hbuild 0)) .start, rfl, rfl⟩

/-- The transaction that the generator sends if its key is that of the sample. -/
def sampleTestTransaction : Transaction :=
  { newTransaction sampleContract with
    gasLimit := 10000
    gasPrice := 1
    fromKey := sampleKey.publicKey
    signature := some (sampleSignature sampleContract) }

theorem testTransaction_sample : TestTransaction .sample sampleTestTransaction :=
  ⟨sampleKey, 0, _, rfl, rfl⟩

/-- The validator is sent the transaction. -/
theorem exists_testGossip (C : Codecs) : ∃ s, History (Process.Step .sample C) (pairStart true)
      (gossipTurns sampleTestTransaction) s ∧
    s.node.memPool.pending.txx = [sampleTestTransaction.seenAt .sample 0] ∧
    s.node.memPool.all = TxSortedMap.new.add .sample (sampleTestTransaction.seenAt .sample 0) ∧
    s.node.chain = Blockchain.sampleChain ∧ s.node.privateKey = some sampleKey ∧
    s.producer = .idle ∧ s.handler = .idle :=
  ⟨_, .cons (.receive rfl rfl trivial) <| .cons (.handle_ok 0 0 rfl) <|
    .cons (.handle_ok 0 0 rfl) <| .cons (.handle_ok 0 0 rfl) <| .cons (.handle_ok 0 0 rfl) <|
    .cons (.handle_ok 0 0 rfl) <| .cons (.handle_ok 0 0 rfl) .start, rfl, rfl, rfl, rfl, rfl, rfl⟩

/-- A block of it can be made. -/
theorem exists_testBlock : ∃ b, Blockchain.sampleChain.buildBlock .sample sampleKey sampleGenesis
    [sampleTestTransaction.seenAt .sample 0] Node.sampleTick = .ok b := ⟨_, rfl⟩

/-- The validator makes a block of the transaction. -/
theorem exists_testRun (C : Codecs) : ∃ b s,
    History (Process.Step .sample C) (pairStart true)
      (gossipTurns sampleTestTransaction ++ signingTurns Node.sampleTick) s ∧
    s.producer = .signed b ∧ b.transactions = [sampleTestTransaction.seenAt .sample 0] ∧
    s.node.chain = Blockchain.sampleChain := by
  obtain ⟨t, ht, hpending, -, hchain, hkey, hidle, -⟩ := exists_testGossip C
  obtain ⟨b, hbuild⟩ := exists_testBlock
  have htxx := Blockchain.buildBlock_transactions hbuild
  rw [← hchain, ← hpending] at hbuild
  have hread : t.node.chain.getHeaderLocked t.node.chain.heightLocked = .ok sampleGenesis := by
    rw [hchain]
    rfl
  obtain ⟨s, hs, hsigned, hnode⟩ := Process.exists_signing (C := C) hidle hkey hread hbuild
  refine ⟨b, s, ht.append hs, hsigned, htxx, ?_⟩
  rw [hnode, hchain]

/-- The theorem for a validator that gets a transaction of the generator. -/
theorem tame_traffic_test : ∃ (C : Codecs) (es : List ((Bool × Turn) × Outcome Err Unit))
    (c : Bool → Process PoWEngine MemoryStore) (b : Block),
      History (Swarm (Process.Step .sample C) (Feeds .sample C)) pairStart es c ∧
      (c true).producer = .signed b ∧
      b.transactions = [sampleTestTransaction.seenAt .sample 0] ∧
      ∃ fuel bc', Blockchain.addBlock .sample fuel b (c true).node.chain = (.ok (), bc') := by
  obtain ⟨C, hC, -⟩ := Codecs.exists_faithful
  obtain ⟨b, s, hs, hb, htxx, hchain⟩ := exists_testRun C
  have hfeeds : ∀ s', ∀ e ∈ gossipTurns sampleTestTransaction ++ signingTurns Node.sampleTick,
      Feeds .sample C (Function.update pairStart true s') true e.1 := by
    intro s' e he
    rcases List.mem_append.mp he with hgossip | hproduce
    · rcases List.mem_cons.mp hgossip with rfl | hhandle
      · exact Or.inr ⟨_, rfl, testTransaction_sample.tame sample_idealSignature.correct⟩
      · rw [List.eq_of_mem_replicate hhandle]
        trivial
    · rw [List.eq_of_mem_replicate hproduce]
      trivial
  have hrun := Swarm.alone hs hfeeds
  have hroom : (Function.update pairStart true s true).node.chain.headers.length < 2 ^ 32 := by
    show s.node.chain.headers.length < 2 ^ 32
    rw [hchain]
    decide
  exact ⟨C, _, _, b, hrun, hb, htxx, (tame_traffic hC sample_idealSignature.correct
    deployed_pairStart nofun hrun hroom).1 b hb⟩

end Blockz
