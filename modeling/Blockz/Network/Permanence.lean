import Blockz.Network.Cluster
import Blockz.Network.Pending

/-!
# What stays

A node has no way to give up a block: `AddBlock` appends, and nothing removes. So a chain only
grows, whatever a process is sent, and two processes that have come to differ at a height differ
there for good.

* `Blockchain.Covered` — the store has no block beyond the headers.
* `forks_stay` — in every run of every network, also one in which messages are forged, headers and
  blocks stay, and so does every fork.
* `broadcast_once` — a process broadcasts a block of its chain, and not two of the same height.
-/

namespace Blockz

open Effect

variable {E S : Type} {P : Primitives} [ConsensusEngine P E] [Storage P S] {C : Codecs}

/-! ### Headers -/

/-- A longer chain has the header at the same place. -/
theorem header_kept {hs hs' : List Header} (hlonger : hs <+: hs') {i : ℕ} {h : Header}
    (hget : hs[i]? = some h) : hs'[i]? = some h := by
  obtain ⟨rest, rfl⟩ := hlonger
  exact (List.getElem?_append_left (List.getElem?_eq_some_iff.mp hget).1).trans hget

namespace Blockchain

/-- What a call of `AddBlock` does to the headers. -/
theorem Called.headers_cases {bc bc' : Blockchain E S} {b : Block} {o : Outcome Err Unit}
    (htip : bc.TipNumbered) (hcall : Called P bc b o bc') :
    bc'.headers = bc.headers ∨ ∃ h, b.header = some h ∧ h.height.toNat = bc.headers.length ∧
      bc'.headers = bc.headers ++ [h] := by
  obtain ⟨fuel, hadd⟩ := hcall
  have happend : ∀ {h c'}, Valid P bc b h c' → b.header = some h ∧
      h.height.toNat = bc.headers.length :=
    fun valid => ⟨valid.header, (valid.extends htip.pos htip.fits).2.1⟩
  cases AddStep.of_call hadd with
  | invalid _ _ => exact Or.inl rfl
  | aborted _ _ _ => exact Or.inl rfl
  | crashed valid _ _ => exact Or.inr ⟨_, (happend valid).1, (happend valid).2, rfl⟩
  | appended valid _ _ _ => exact Or.inr ⟨_, (happend valid).1, (happend valid).2, rfl⟩

/-- A block that was accepted has its header at the end. -/
theorem Called.headers_of_ok {bc bc' : Blockchain E S} {b : Block} (htip : bc.TipNumbered)
    (hcall : Called P bc b (.ok ()) bc') :
    ∃ h, b.header = some h ∧ h.height.toNat = bc.headers.length ∧
      bc'.headers = bc.headers ++ [h] := by
  obtain ⟨fuel, hadd⟩ := hcall
  obtain ⟨h, c', ws, total, s, valid, -, -, -, rfl⟩ := addBlock_eq_ok hadd
  exact ⟨h, valid.header, (valid.extends htip.pos htip.fits).2.1, rfl⟩

/-- A call of `AddBlock` takes no header away. -/
theorem Called.headers_grow {bc bc' : Blockchain E S} {b : Block} {o : Outcome Err Unit}
    (htip : bc.TipNumbered) (hcall : Called P bc b o bc') : bc.headers <+: bc'.headers := by
  rcases hcall.headers_cases htip with hsame | ⟨h, -, -, hheaders⟩
  · rw [hsame]
  · rw [hheaders]
    exact List.prefix_append _ _

end Blockchain

/-! ### Blocks -/

namespace Blockchain

/-- The store has no block beyond the headers. -/
def Covered (P : Primitives) [Storage P S] (bc : Blockchain E S) : Prop :=
  ∀ i b, bc.getBlock P i = .ok b → i.toNat < bc.headers.length

/-- A call of `AddBlock` keeps the blocks, and puts no block beyond the headers. -/
theorem Called.blocks_kept [LawfulStorage P S] {bc bc' : Blockchain E S} {b : Block}
    {o : Outcome Err Unit} (htip : bc.TipNumbered) (hcovered : bc.Covered P)
    (hcall : Called P bc b o bc') :
    bc'.Covered P ∧ ∀ i b', bc.getBlock P i = .ok b' → bc'.getBlock P i = .ok b' := by
  obtain ⟨fuel, hadd⟩ := hcall
  cases AddStep.of_call hadd with
  | invalid _ _ => exact ⟨hcovered, fun _ _ => id⟩
  | aborted _ _ _ => exact ⟨hcovered, fun _ _ => id⟩
  | crashed _ _ _ =>
    refine ⟨fun i b' hget => ?_, fun _ _ => id⟩
    have hlt := hcovered i b' hget
    show i.toNat < (bc.headers ++ [_]).length
    rw [List.length_append]
    omega
  | @appended c' h ws total o s valid _ _ put =>
    obtain ⟨-, hheight, -⟩ := valid.extends htip.pos htip.fits
    have hs : s = (Storage.put P b bc.store).2 := by rw [put]
    refine ⟨fun i b' hget => ?_, fun i b' hget => ?_⟩
    · show i.toNat < (bc.headers ++ [h]).length
      rw [List.length_append, List.length_singleton]
      by_cases hi : i = h.height
      · rw [hi, hheight]
        exact Nat.lt_succ_self _
      · change Storage.get P s i = .ok b' at hget
        rw [hs, LawfulStorage.get_put_of_ne bc.store valid.header hi] at hget
        exact (hcovered i b' hget).trans (Nat.lt_succ_self _)
    · -- the new block is at a height that had none
      have hne : i ≠ h.height := by
        rintro rfl
        exact absurd (hcovered h.height b' hget) (by omega)
      show Storage.get P s i = .ok b'
      rw [hs, LawfulStorage.get_put_of_ne bc.store valid.header hne]
      exact hget

end Blockchain

/-! ### New nodes -/

omit [ConsensusEngine P E] [Storage P S] in
theorem Node.genesisBlock_header : ∃ g, Node.genesisBlock.header = some g ∧ g.height = 0 :=
  ⟨_, rfl, rfl⟩

/-- What `NewServer` makes on a store without blocks. -/
theorem Node.newServer_of_empty [FaithfulStorage P S] {fuel : ℕ} {opts : ServerOpts E S}
    {n : Node E S} (hempty : ∀ i, ∃ e, Storage.get P opts.storage i = .err e)
    (hnew : newServer P fuel opts = .ok n) :
    n.chain.Reached P ∧ n.chain.headers = genesisBlock.header.toList ∧
      (∀ i b, n.chain.getBlock P i = .ok b → b.exported = genesisBlock.exported) ∧
      n.launched = [] ∧ n.sent = [] ∧ n.privateKey = opts.privateKey := by
  obtain ⟨g, hg, hzero⟩ := genesisBlock_header
  obtain ⟨bc, hbc, hn⟩ := Outcome.bind_eq_ok.mp hnew
  obtain rfl := Outcome.ok.inj hn
  have hreached : bc.Reached P := .opened hempty hg hzero hbc
  have hfresh : bc.headers = [g] ∧ bc.store = (Storage.put P genesisBlock opts.storage).2 := by
    rcases Blockchain.newBlockchain_cases hg hbc with hmade | ⟨b, hget, -⟩
    · exact hmade
    · obtain ⟨e, hmissing⟩ := hempty 0
      exact nomatch hget.symm.trans hmissing
  have hstored : ∀ i b, bc.getBlock P i = .ok b → b.exported = genesisBlock.exported := by
    intro i b hget
    unfold Blockchain.getBlock at hget
    rw [hfresh.2] at hget
    by_cases hi : i = g.height
    · subst hi
      exact FaithfulStorage.exported_put_self opts.storage hg hget
    · rw [LawfulStorage.get_put_of_ne opts.storage hg hi] at hget
      obtain ⟨e, hmissing⟩ := hempty i
      exact nomatch hget.symm.trans hmissing
  rw [hg]
  -- installing an engine leaves headers and store alone
  cases opts.consensus with
  | none => exact ⟨hreached, hfresh.1, hstored, rfl, rfl, rfl⟩
  | some e =>
    exact ⟨hreached.used (u := .setConsensus e) ⟨rfl, rfl⟩, hfresh.1, hstored, rfl, rfl, rfl⟩

/-- The processes have just been made by `NewServer`, on stores without blocks. -/
def Started {κ : Type} (P : Primitives) [ConsensusEngine P E] [Storage P S]
    (c : κ → Process E S) : Prop :=
  ∀ k, ∃ fuel opts n, Node.newServer P fuel opts = .ok n ∧ c k = .start n ∧
    ∀ i, ∃ e, Storage.get P opts.storage i = .err e

/-! ### Runs -/

/-- A chain that a process can hold, with no block beyond its headers. -/
structure Rooted (P : Primitives) [ConsensusEngine P E] [Storage P S] (bc : Blockchain E S) :
    Prop where
  reached : bc.Reached P
  covered : bc.Covered P

/-- `bc'` has the headers and blocks of `bc`, and perhaps more. -/
structure Extends (P : Primitives) [Storage P S] (bc bc' : Blockchain E S) : Prop where
  headers : bc.headers <+: bc'.headers
  blocks : ∀ i b, bc.getBlock P i = .ok b → bc'.getBlock P i = .ok b

omit [ConsensusEngine P E] in
theorem Extends.refl (bc : Blockchain E S) : Extends P bc bc := ⟨List.prefix_rfl, fun _ _ => id⟩

omit [ConsensusEngine P E] in
theorem Extends.trans {bc bc' bc'' : Blockchain E S} (h : Extends P bc bc')
    (h' : Extends P bc' bc'') : Extends P bc bc'' :=
  ⟨h.headers.trans h'.headers, fun i b hget => h'.blocks i b (h.blocks i b hget)⟩

theorem Rooted.of_newServer [FaithfulStorage P S] {fuel : ℕ} {opts : Node.ServerOpts E S}
    {n : Node E S} (hempty : ∀ i, ∃ e, Storage.get P opts.storage i = .err e)
    (hnew : Node.newServer P fuel opts = .ok n) : Rooted P n.chain := by
  obtain ⟨hreached, hheaders, hstored, -⟩ := Node.newServer_of_empty hempty hnew
  obtain ⟨g, hg, hzero⟩ := Node.genesisBlock_header
  refine ⟨hreached, fun i b hget => ?_⟩
  obtain ⟨h, hheader, rfl⟩ := hreached.grounded.store i b hget
  have hsame : b.header = Node.genesisBlock.header := (congrArg Block.header (hstored _ b hget) :)
  obtain rfl : g = h := Option.some.inj (hg.symm.trans (hsame.symm.trans hheader))
  rw [hheaders, hg, hzero]
  exact Nat.one_pos

variable [SealingEngine P E]

/-- **A turn takes nothing away.** -/
theorem Process.Step.extends [LawfulStorage P S] {s s' : Process E S} {t : Turn}
    {o : Outcome Err Unit} (hs : Rooted P s.node.chain) (hstep : Process.Step P C s t o s') :
    Rooted P s'.node.chain ∧ Extends P s.node.chain s'.node.chain := by
  rcases hstep.adds.chain with hsame | ⟨b, r, -, -, hcall⟩
  · rw [hsame]
    exact ⟨hs, .refl _⟩
  · have htip := hs.reached.grounded.tip
    obtain ⟨hcovered, hkept⟩ := hcall.blocks_kept htip hs.covered
    exact ⟨⟨.used hs.reached (u := .addBlock b) hcall, hcovered⟩, hcall.headers_grow htip, hkept⟩

/-! ### Runs of the samples -/

section Sample

theorem Process.Step.produce_ok {s : Process E S} (tick : Tick) {key : PrivateKey} (fuel : ℕ)
    {p : Production} {n' : Node E S} (held : s.node.privateKey = some key)
    (call : s.producer.step P fuel key tick s.node = (.ok p, n')) :
    Step P C s (.produce tick) (.ok ()) { s with node := n', producer := p } :=
  .produce held call trivial

theorem Process.Step.handle_ok {s : Process E S} (now : Int64) (fuel : ℕ) {h : Handler}
    {n' : Node E S} (call : s.handler.step P C fuel now s.node = (.ok h, n')) :
    Step P C s (.handle now) (.ok ()) { s with node := n', handler := h } :=
  .handle call trivial

omit [SealingEngine P E] in
/-- The call of `AddBlock` in `processBlock`. -/
theorem Handler.step_adding {fuel : ℕ} {b : Block} {r : Except Err Unit} {n : Node E S}
    {bc : Blockchain E S}
    (hadd : Act.attempt (Blockchain.addBlock P fuel b) n.chain = (.ok r, bc)) (sender : NetAddr)
    (now : Int64) :
    Handler.step P C fuel now (.adding sender b) n =
      (.ok (.added sender b r), { n with chain := bc }) := by
  have hattempt : Act.attempt (Node.onChain (Blockchain.addBlock P fuel b)) n =
      (.ok r, { n with chain := bc }) := by
    unfold Act.attempt at hadd ⊢
    unfold Node.onChain
    rw [Act.on_apply]
    rcases hcall : Blockchain.addBlock P fuel b n.chain with ⟨_ | _ | _ | _, bc'⟩ <;>
      rw [hcall] at hadd <;> cases hadd <;> rfl
  exact Act.bind_apply_ok hattempt _

/-- A call of `createNewBlock` from beginning to end. -/
def producerTurns : List (Turn × Outcome Err Unit) :=
  List.replicate 5 (.produce Node.sampleTick, .ok ())

/-- The block without transactions, made by the sample node. -/
theorem exists_producerRun : ∃ (b : Block) (fuel : ℕ) (bc : Blockchain PoWEngine MemoryStore),
    Blockchain.sampleChain.buildBlock .sample sampleKey sampleGenesis [] Node.sampleTick = .ok b ∧
      Blockchain.addBlock .sample fuel b Blockchain.sampleChain = (.ok (), bc) ∧
      ∀ C, ∃ s, History (Process.Step .sample C) (.start Node.sampleNode) producerTurns s ∧
        s.node.chain = bc ∧ s.node.launched = [.block b] ∧
        s.node.peers = Node.sampleNode.peers ∧ s.handler = .idle := by
  obtain ⟨b, fuel, bc, hbuild, hadd⟩ := Threads.exists_emptyBlock
  exact ⟨b, fuel, bc, hbuild, hadd, fun C =>
    ⟨_, .cons (.produce_ok Node.sampleTick 0 rfl rfl) <|
      .cons (.produce_ok Node.sampleTick 0 rfl rfl) <|
      .cons (.produce_ok Node.sampleTick 0 rfl (Threads.production_signs hbuild 0)) <|
      .cons (.produce_ok Node.sampleTick fuel rfl (Threads.production_adds hadd)) <|
      .cons (.produce_ok Node.sampleTick 0 rfl rfl) .start, rfl, rfl, rfl, rfl⟩⟩

end Sample

/-! ### Forks -/

/-- **Forks stay.** Two moments of a run of a network, in which the processes may be sent anything.
What a process has at the first moment, headers and blocks, it has at the second. So two processes
that have different headers at a height go on having different headers there. -/
theorem forks_stay [FaithfulStorage P S] {κ : Type} [DecidableEq κ] {c₀ c c' : κ → Process E S}
    {es es' : List ((κ × Turn) × Outcome Err Unit)} (hnew : Started P c₀)
    (hrun : History (Swarm (Process.Step P C) fun _ _ _ => True) c₀ es c)
    (hrun' : History (Swarm (Process.Step P C) fun _ _ _ => True) c es' c') :
    (∀ k, (c k).node.chain.headers <+: (c' k).node.chain.headers ∧
      ∀ i b, (c k).node.chain.getBlock P i = .ok b → (c' k).node.chain.getBlock P i = .ok b) ∧
    ∀ (j k : κ) (i : ℕ) (h h' : Header), (c j).node.chain.headers[i]? = some h →
      (c k).node.chain.headers[i]? = some h' → h ≠ h' →
        (c' j).node.chain.headers[i]? ≠ (c' k).node.chain.headers[i]? := by
  have hrooted : ∀ k, Rooted P (c k).node.chain := by
    refine Swarm.each (I := fun _ _ s => Rooted P s.node.chain) hrun (fun k => ?_)
      (fun _ _ _ _ => id) fun _ c k _ _ _ hc _ hstep => (hstep.extends (hc k)).1
    obtain ⟨fuel, opts, n, hn, hk, hempty⟩ := hnew k
    rw [hk]
    exact .of_newServer hempty hn
  have hkept : ∀ k, Rooted P (c' k).node.chain ∧ Extends P (c k).node.chain (c' k).node.chain := by
    refine Swarm.each (I := fun k _ s => Rooted P s.node.chain ∧
      Extends P (c k).node.chain s.node.chain) hrun' (fun k => ⟨hrooted k, .refl _⟩)
      (fun _ _ _ _ => id) fun _ c₁ k _ _ s' hc _ hstep => ?_
    obtain ⟨hroot, hext⟩ := hstep.extends (hc k).1
    exact ⟨hroot, (hc k).2.trans hext⟩
  refine ⟨fun k => ⟨(hkept k).2.headers, (hkept k).2.blocks⟩, fun j k i h h' hh hh' hne heq => ?_⟩
  rw [header_kept (hkept j).2.headers hh, header_kept (hkept k).2.headers hh'] at heq
  exact hne (Option.some.inj heq)

/-- A peer's block arrives and is given to `AddBlock`. -/
def deliveryTurns (b : Block) : List (Turn × Outcome Err Unit) :=
  [(.receive Node.sampleMoment ⟨"B", .block b⟩, .ok ()), (.handle 0, .ok ())]

theorem exists_deliveryRun {s : Process E S} {fuel : ℕ} {b : Block} {r : Except Err Unit}
    {bc : Blockchain E S} (hidle : s.handler = .idle)
    (hadd : Act.attempt (Blockchain.addBlock P fuel b) s.node.chain = (.ok r, bc)) :
    ∃ s', History (Process.Step P C) s (deliveryTurns b) s' ∧ s'.node.chain = bc :=
  ⟨_, .cons (.receive hidle rfl trivial) <|
    .cons (.handle_ok 0 fuel (Handler.step_adding hadd "B" 0)) .start, rfl⟩

/-- A block that comes from elsewhere. -/
def forkBlock : Block := Node.peerBlock (sampleTransfer 0 0)

/-- Two nodes with the same genesis block. One makes a block, the other gets one from elsewhere.
Then the first is sent the block of the second, and the two chains differ as before. -/
theorem forks_stay_pair : ∃ (C : Codecs) (es : List ((Bool × Turn) × Outcome Err Unit))
    (c c' : Bool → Process PoWEngine MemoryStore),
      History (Swarm (Process.Step .sample C) fun _ _ _ => True)
        (fun _ => .start Node.sampleNode) es c ∧
      History (Swarm (Process.Step .sample C) fun _ _ _ => True) c
        ((deliveryTurns forkBlock).map fun e => ((true, e.1), e.2)) c' ∧
      (c' true).node.chain.headers[1]? ≠ (c' false).node.chain.headers[1]? := by
  obtain ⟨b, fuel, bc, hbuild, hadd, hproduce⟩ := exists_producerRun
  obtain ⟨s, hs, hchain, -, -, hidle⟩ := hproduce Node.noContent
  have htip := Blockchain.reached_sampleChain.grounded.tip
  obtain ⟨h, hb, -, hheaders⟩ := Blockchain.Called.headers_of_ok htip ⟨fuel, hadd⟩
  -- the other block
  have haccepted : (Blockchain.addBlock .sample 1 forkBlock Blockchain.sampleChain).1 =
      .ok () := by decide +kernel
  obtain ⟨bd, hpeer⟩ : ∃ bd, Blockchain.addBlock .sample 1 forkBlock Blockchain.sampleChain =
      (.ok (), bd) := ⟨_, Act.eq_mk_of_fst haccepted⟩
  obtain ⟨h', hb', hheight', hheaders'⟩ := Blockchain.Called.headers_of_ok htip ⟨1, hpeer⟩
  have hne : h ≠ h' := by
    have hheader : (Blockchain.sampleChain.buildBlock .sample sampleKey sampleGenesis []
        Node.sampleTick >>= fun b => .ok b.header) ≠ .ok forkBlock.header := by
      decide +kernel
    rintro rfl
    rw [hbuild, Outcome.bind_ok, hb, hb'] at hheader
    exact hheader rfl
  obtain ⟨t, ht, hgot⟩ := exists_deliveryRun (P := .sample) (C := Node.noContent)
    (s := Process.start Node.sampleNode) (r := .ok ()) rfl (Act.attempt_eq_ok.mpr hpeer)
  -- the first has a block at that height
  have htaken : bc.hasBlockLocked h'.height := by
    have hone : h'.height = 1 := UInt32.toNat_inj.mp (hheight'.trans rfl)
    unfold Blockchain.hasBlockLocked Blockchain.heightLocked
    rw [hheaders, hone, List.length_append]
    show (1 : UInt32) ≤ UInt32.ofNat 2 - 1
    decide
  have hrefused : Act.attempt (Blockchain.addBlock .sample 0 forkBlock) s.node.chain =
      (.ok (.error (.chainAlreadyContains h'.height (forkBlock.hash .sample h'))), bc) := by
    unfold Act.attempt
    rw [hchain, Blockchain.addBlock_of_taken 0 hb' htaken]
  obtain ⟨s', hs', -⟩ := exists_deliveryRun (C := Node.noContent) hidle hrefused
  obtain ⟨c, hc, htrue, hfalse⟩ : ∃ c : Bool → Process PoWEngine MemoryStore,
      History (Swarm (Process.Step .sample Node.noContent) fun _ _ _ => True)
        (fun _ => .start Node.sampleNode) (producerTurns.map (fun e => ((true, e.1), e.2)) ++
          (deliveryTurns forkBlock).map fun e => ((false, e.1), e.2)) c ∧
        c true = s ∧ c false = t :=
    ⟨_, (Swarm.alone (k := true) hs fun _ _ _ => trivial).append
      (Swarm.alone (k := false) ht fun _ _ _ => trivial), rfl, rfl⟩
  rw [← htrue] at hs'
  have hc' : History (Swarm (Process.Step .sample Node.noContent) fun _ _ _ => True) c _ _ :=
    Swarm.alone hs' fun _ _ _ => trivial
  have hnew : Started .sample fun _ : Bool => Process.start Node.sampleNode :=
    fun _ => ⟨1, Node.sampleOpts, _, Node.newServer_sampleNode, rfl,
      fun i => ⟨.blockNotFound i, rfl⟩⟩
  refine ⟨Node.noContent, _, c, _, hc, hc', ?_⟩
  refine (forks_stay hnew hc hc').2 true false 1 h h' ?_ ?_ hne
  · rw [htrue, hchain, hheaders]
    rfl
  · rw [hfalse, hgot, hheaders']
    rfl

/-! ### Broadcasts of blocks -/

/-- The block of a broadcast. -/
def Broadcast.block? : Broadcast → Option Block
  | .transaction _ => none
  | .block b => some b

/-- The block that the loop is about to broadcast. -/
def Handler.accepted : Handler → Multiset Block
  | .added _ b (.ok _) => {b}
  | _ => 0

/-- The block that `createNewBlock` is about to broadcast. -/
def Production.accepted : Production → Multiset Block
  | .added b => {b}
  | _ => 0

/-- The blocks that a process has broadcast. -/
def Node.broadcasts (n : Node E S) : Multiset Block :=
  (n.launched.filterMap Broadcast.block? : List Block)

/-- The blocks that a process has broadcast or is about to. -/
def Process.accepted (s : Process E S) : Multiset Block :=
  s.node.broadcasts + s.producer.accepted + s.handler.accepted

/-- The height of a block. -/
def Block.height? (b : Block) : Option UInt32 := b.header.map Header.height

/-- They are on the chain, one at each height. -/
structure Process.Once (s : Process E S) : Prop where
  onChain : ∀ b ∈ s.accepted, ∃ h, b.header = some h ∧
    s.node.chain.headers[h.height.toNat]? = some h
  distinct : (s.accepted.map Block.height?).Nodup

/-- Nothing is added to such blocks but one that the chain has just taken. -/
def Accepts (P : Primitives) [ConsensusEngine P E] [Storage P S] (bc bc' : Blockchain E S)
    (bs bs' : Multiset Block) : Prop :=
  bs' ≤ bs ∨ ∃ b, Blockchain.Called P bc b (.ok ()) bc' ∧ bs' ≤ b ::ₘ bs

omit [SealingEngine P E] in
theorem Accepts.add_right {bc bc' : Blockchain E S} {bs bs' : Multiset Block}
    (h : Accepts P bc bc' bs bs') (more : Multiset Block) :
    Accepts P bc bc' (bs + more) (bs' + more) := by
  rcases h with hle | ⟨b, hcall, hle⟩
  · exact Or.inl (Multiset.add_le_add_right hle)
  · refine Or.inr ⟨b, hcall, ?_⟩
    rw [← Multiset.cons_add]
    exact Multiset.add_le_add_right hle

omit [SealingEngine P E] in
theorem Process.Once.accepts {s s' : Process E S} (hs : s.Once) (htip : s.node.chain.TipNumbered)
    (hlonger : s.node.chain.headers <+: s'.node.chain.headers)
    (hstep : Accepts P s.node.chain s'.node.chain s.accepted s'.accepted) : s'.Once := by
  have hold : ∀ b ∈ s.accepted, ∃ h, b.header = some h ∧
      s'.node.chain.headers[h.height.toNat]? = some h := by
    intro b hb
    obtain ⟨h, hheader, hget⟩ := hs.onChain b hb
    exact ⟨h, hheader, header_kept hlonger hget⟩
  rcases hstep with hle | ⟨b, hcall, hle⟩
  · exact ⟨fun b hb => hold b (Multiset.mem_of_le hle hb),
      Multiset.nodup_of_le (Multiset.map_le_map hle) hs.distinct⟩
  · obtain ⟨h, hheader, hheight, hheaders⟩ := hcall.headers_of_ok htip
    refine ⟨fun b' hb' => ?_, Multiset.nodup_of_le (Multiset.map_le_map hle) ?_⟩
    · rcases Multiset.mem_cons.mp (Multiset.mem_of_le hle hb') with rfl | hb'
      · refine ⟨h, hheader, ?_⟩
        rw [hheaders, hheight, List.getElem?_concat_length]
      · exact hold b' hb'
    · -- the others are below the end of the chain, where the new one is
      rw [Multiset.map_cons, Multiset.nodup_cons]
      refine ⟨fun hmem => ?_, hs.distinct⟩
      obtain ⟨b', hb', hsame⟩ := Multiset.mem_map.mp hmem
      obtain ⟨h', hheader', hget⟩ := hs.onChain b' hb'
      unfold Block.height? at hsame
      rw [hheader, hheader'] at hsame
      have hlt : h'.height.toNat < s.node.chain.headers.length :=
        (List.getElem?_eq_some_iff.mp hget).1
      rw [Option.some.inj hsame, hheight] at hlt
      exact lt_irrefl _ hlt

/-! ### Turns and broadcasts -/

/-- Nothing is asked. -/
def Marking.any : Marking where
  block _ := True
  transaction _ := True
  block_congr _ _ := trivial
  transaction_congr _ _ := trivial

omit [ConsensusEngine P E] [Storage P S] [SealingEngine P E] in
theorem Marking.carried_any (payload : List (Gob.Frame Message)) :
    Marking.any.Carried C payload := by
  intro sender msg _
  rcases msg with ⟨_, _ | _ | _ | _ | _ | _ | _ | _⟩
  case blocks => exact fun _ _ => trivial
  all_goals trivial

/-- No block was broadcast. -/
def Node.SameBroadcasts (n n' : Node E S) : Prop := n'.broadcasts = n.broadcasts

instance : Std.Refl (Node.SameBroadcasts : Node E S → Node E S → Prop) where
  refl _ := rfl

instance : IsTrans (Node E S) Node.SameBroadcasts where
  trans _ _ _ h₁ h₂ := Eq.trans h₂ h₁

omit [ConsensusEngine P E] [Storage P S] [SealingEngine P E] in
theorem Node.Spoke.sameBroadcasts {K : Marking} {n n' : Node E S} (h : n.Spoke C K n') :
    n.SameBroadcasts n' := by
  unfold Node.SameBroadcasts Node.broadcasts
  rw [h.launched]

omit [ConsensusEngine P E] [Storage P S] [SealingEngine P E] in
theorem Node.sameBroadcasts_onChain {α : Type} (m : Act (Blockchain E S) Err α) :
    Act.Moves Node.SameBroadcasts (Node.onChain m : Act (Node E S) Err α) := fun _ => rfl

omit [ConsensusEngine P E] [Storage P S] [SealingEngine P E] in
theorem Node.upholds_sameBroadcasts {α : Type} {m : Act (Node E S) Err α} {n : Node E S}
    (hm : Act.Moves Node.SameBroadcasts m) :
    Act.Upholds (Node.SameBroadcasts n) (fun _ => True) m :=
  Act.Upholds.of_moves hm fun _ _ hstep hs => Eq.trans hstep hs

omit [ConsensusEngine P E] [Storage P S] [SealingEngine P E] in
theorem Node.upholds_of_spoke {α : Type} {m : Act (Node E S) Err α} {n : Node E S}
    (hm : Act.Moves (Node.Spoke C .any) m) :
    Act.Upholds (Node.SameBroadcasts n) (fun _ => True) m :=
  Node.upholds_sameBroadcasts fun n => (hm n).sameBroadcasts

omit [ConsensusEngine P E] [Storage P S] [SealingEngine P E] in
theorem Call.sameBroadcasts (c : Call) (now : Int64) :
    Act.Moves Node.SameBroadcasts (c.step P now : Act (Node E S) Err (Option Call)) := by
  obtain ⟨tx, stage⟩ := c
  cases stage with
  | lookup => exact Act.Moves.get.bind fun _ => Act.Moves.pure _
  | verify =>
    refine (Act.Moves.lift _).bind fun _ => Act.Moves.bind (fun n => ?_) fun _ => Act.Moves.pure _
    show ((n.launched ++ [_]).filterMap Broadcast.block? : Multiset Block) = n.broadcasts
    rw [List.filterMap_append]
    exact congrArg _ (List.append_nil _)
  | add stage => exact Act.Moves.bind (fun _ => rfl) fun _ => Act.Moves.pure _

omit [SealingEngine P E] in
/-- A call of `AddBlock` that returns. -/
theorem Accepts.of_addBlock {b : Block} {fuel : ℕ} {u : Unit} {n n' : Node E S}
    (hcall : Node.onChain (Blockchain.addBlock P fuel b) n = (.ok u, n')) :
    Accepts P n.chain n'.chain n.broadcasts (n'.broadcasts + {b}) := by
  obtain ⟨hok, rfl⟩ := Prod.mk.inj hcall
  refine Or.inr ⟨b, ⟨fuel, Prod.ext hok rfl⟩, ?_⟩
  show n.broadcasts + {b} ≤ b ::ₘ n.broadcasts
  rw [Multiset.add_comm, Multiset.singleton_add]

omit [SealingEngine P E] in
/-- Nothing is broadcast, nothing is accepted. -/
theorem Accepts.of_sameBroadcasts {n n' : Node E S} {bs bs' : Multiset Block}
    (h : n.SameBroadcasts n') (hnone : bs' = 0) :
    Accepts P n.chain n'.chain (n.broadcasts + bs) (n'.broadcasts + bs') := by
  rw [hnone, add_zero, show n'.broadcasts = n.broadcasts from h]
  exact Or.inl (Multiset.le_add_right _ _)

omit [SealingEngine P E] in
/-- A step that broadcasts and accepts nothing, whichever way it ends. -/
theorem Accepts.of_upholds {α : Type} {m : Act (Node E S) Err α} {accepted : α → Multiset Block}
    {idle : α} {o : Outcome Err α} {n n' : Node E S} {bs : Multiset Block}
    (hidle : accepted idle = 0)
    (hm : Act.Upholds (Node.SameBroadcasts n) (fun a => accepted a = 0) m)
    (hcall : m n = (o, n')) :
    Accepts P n.chain n'.chain (n.broadcasts + bs)
      (n'.broadcasts + accepted (o.toOption.getD idle)) := by
  have hstep := hm n rfl
  rw [hcall] at hstep
  refine .of_sameBroadcasts hstep.1 ?_
  cases o with
  | ok a => exact hstep.2 a rfl
  | err _ => exact hidle
  | panic _ => exact hidle
  | outOfFuel => exact hidle

omit [SealingEngine P E] in
/-- What a step of the loop does to the blocks that were accepted. -/
theorem Handler.step_accepts {h : Handler} {fuel : ℕ} {now : Int64} {o : Outcome Err Handler}
    {n n' : Node E S} (hcall : h.step P C fuel now n = (o, n')) :
    Accepts P n.chain n'.chain (n.broadcasts + h.accepted)
      (n'.broadcasts + (o.toOption.getD .idle).accepted) := by
  have hquiet : Act.Upholds (Node.SameBroadcasts n) (fun h' => h'.accepted = 0)
      (h.step P C fuel now : Act (Node E S) Err Handler) →
        Accepts P n.chain n'.chain (n.broadcasts + h.accepted)
          (n'.broadcasts + (o.toOption.getD .idle).accepted) :=
    fun hup => .of_upholds rfl hup hcall
  cases h with
  | idle => exact hquiet (Act.Upholds.pure rfl)
  | submitting c =>
    -- a transaction may be launched, which is not a block
    refine hquiet ((Node.upholds_sameBroadcasts (c.sameBroadcasts now)).bind
      fun next _ => Act.Upholds.pure ?_)
    cases next <;> rfl
  | adding sender b =>
    -- `AddBlock` is the one step that may accept a block; it launches nothing yet
    have hsame : n.SameBroadcasts n' :=
      Act.Moves.of_call ((Act.Moves.attempt (Node.sameBroadcasts_onChain _)).bind
        fun _ => Act.Moves.pure _) hcall
    cases o with
    | ok h' =>
      obtain ⟨r, n₁, htried, hend⟩ := Act.bind_eq_ok.mp hcall
      cases hend
      cases r with
      | ok u =>
        rw [show (Handler.adding sender b).accepted = 0 from rfl, add_zero]
        exact .of_addBlock (Act.attempt_eq_ok.mp htried)
      | error e => exact .of_sameBroadcasts hsame rfl
    | err e => exact .of_sameBroadcasts hsame rfl
    | panic p => exact .of_sameBroadcasts hsame rfl
    | outOfFuel => exact .of_sameBroadcasts hsame rfl
  | added sender b result =>
    cases result with
    | ok _ =>
      -- the block goes from the handler to what is launched, and is counted once on either side
      cases hcall
      refine Or.inl (le_of_eq ?_)
      show ((n.launched ++ [Broadcast.block b]).filterMap Broadcast.block? : Multiset Block) + 0 = _
      rw [List.filterMap_append, add_zero]
      rfl
    | error e =>
      -- a block that is ahead of the chain, one that is known, or another error
      refine hquiet ?_
      show Act.Upholds _ _ (if _ then _ else if _ then _ else _)
      split
      · exact Act.Upholds.pure rfl
      · split
        · exact Act.Upholds.pure rfl
        · exact Act.Upholds.lift fun _ hr => nomatch hr
  | asking sender last =>
    refine hquiet (Act.Upholds.get.bind fun _ _ => ?_)
    exact (Node.upholds_of_spoke (Node.onServer_spoke (Server.sendGetBlocks_spoke sender _))).bind
      fun _ _ => Act.Upholds.pure rfl
  | bounding sender first => exact hquiet (Act.Upholds.get.bind fun _ _ => Act.Upholds.pure rfl)
  | collecting sender i last blocks =>
    refine hquiet (Act.Upholds.get.bind fun _ _ => ?_)
    -- one more block is read, or the answer is sent
    split
    · exact (Node.upholds_sameBroadcasts (Act.Moves.lift _)).bind fun _ _ => Act.Upholds.pure rfl
    · refine (Node.upholds_sameBroadcasts (Act.Moves.lift _)).bind fun data _ => ?_
      have hcarried : ∀ id, Marking.any.Carried C ((newMessage .blocks data).bytes id) :=
        fun id => Marking.carried_any _
      exact (Node.upholds_of_spoke (Node.onServer_spoke (Server.send_spoke sender hcarried))).bind
        fun _ _ => Act.Upholds.pure rfl
  | batch rest =>
    cases rest with
    | nil => exact hquiet (Act.Upholds.pure rfl)
    | cons b rest =>
      -- the blocks of a batch are not sent on
      exact hquiet ((Node.upholds_sameBroadcasts (Node.sameBroadcasts_onChain _)).bind
        fun _ _ => Act.Upholds.pure rfl)

/-- What a step of `createNewBlock` does to them. -/
theorem Production.step_accepts {p : Production} {fuel : ℕ} {key : PrivateKey} {tick : Tick}
    {o : Outcome Err Production} {n n' : Node E S} (hcall : p.step P fuel key tick n = (o, n')) :
    Accepts P n.chain n'.chain (n.broadcasts + p.accepted)
      (n'.broadcasts + (o.toOption.getD .idle).accepted) := by
  have hquiet : Act.Upholds (Node.SameBroadcasts n) (fun p' => p'.accepted = 0)
      (p.step P fuel key tick : Act (Node E S) Err Production) →
        Accepts P n.chain n'.chain (n.broadcasts + p.accepted)
          (n'.broadcasts + (o.toOption.getD .idle).accepted) :=
    fun hup => .of_upholds rfl hup hcall
  cases p with
  | idle =>
    exact hquiet (Act.Upholds.get.bind fun _ _ =>
      (Node.upholds_sameBroadcasts (Act.Moves.lift _)).bind fun _ _ => Act.Upholds.pure rfl)
  | headerRead h => exact hquiet (Act.Upholds.get.bind fun _ _ => Act.Upholds.pure rfl)
  | pendingRead h txx =>
    exact hquiet (Act.Upholds.get.bind fun _ _ =>
      (Node.upholds_sameBroadcasts (Act.Moves.lift _)).bind fun _ _ => Act.Upholds.pure rfl)
  | signed b =>
    have hsame : n.SameBroadcasts n' :=
      Act.Moves.of_call ((Node.sameBroadcasts_onChain _).bind fun _ => Act.Moves.pure _) hcall
    cases o with
    | ok p' =>
      obtain ⟨u, n₁, hadded, hend⟩ := Act.bind_eq_ok.mp hcall
      cases hend
      rw [show (Production.signed b).accepted = 0 from rfl, add_zero]
      exact .of_addBlock hadded
    | err e => exact .of_sameBroadcasts hsame rfl
    | panic p => exact .of_sameBroadcasts hsame rfl
    | outOfFuel => exact .of_sameBroadcasts hsame rfl
  | added b =>
    cases hcall
    refine Or.inl (le_of_eq ?_)
    show ((n.launched ++ [Broadcast.block b]).filterMap Broadcast.block? : Multiset Block) + 0 = _
    rw [List.filterMap_append, add_zero]
    rfl

omit [SealingEngine P E] in
/-- The start of a handling. -/
theorem Handler.start_accepts {moment : Moment} {msg : DecodedMessage} {o : Outcome Err Handler}
    {n n' : Node E S} (hcall : Handler.start C moment msg n = (o, n')) :
    Accepts P n.chain n'.chain (n.broadcasts + 0)
      (n'.broadcasts + (o.toOption.getD .idle).accepted) := by
  refine .of_upholds rfl ?_ hcall
  obtain ⟨sender, data⟩ := msg
  cases data with
  | transaction tx => exact Act.Upholds.pure rfl
  | block b => exact Act.Upholds.pure rfl
  | getBlocks req =>
    refine Act.Upholds.get.bind fun _ _ => Act.Upholds.pure ?_
    split <;> rfl
  | blocks received => exact Act.Upholds.pure rfl
  | status st =>
    refine Act.Upholds.get.bind fun _ _ => Act.Upholds.pure ?_
    split <;> rfl
  | getStatus =>
    exact (Node.upholds_of_spoke (Node.onServer_spoke
      (Server.processGetStatusMessage_spoke sender))).bind fun _ _ => Act.Upholds.pure rfl
  | getPeers =>
    exact (Node.upholds_of_spoke (Node.handleGetPeers_spoke moment sender)).bind
      fun _ _ => Act.Upholds.pure rfl
  | sharePeers peers =>
    exact (Node.upholds_of_spoke (Node.handleSharePeers_spoke (C := C) peers)).bind
      fun _ _ => Act.Upholds.pure rfl

/-- **Nothing is accepted in a turn but what `AddBlock` takes.** -/
theorem Process.Step.accepts {s s' : Process E S} {t : Turn} {o : Outcome Err Unit}
    (hstep : Process.Step P C s t o s') :
    Accepts P s.node.chain s'.node.chain s.accepted s'.accepted := by
  have hquiet : ∀ {n' : Node E S}, s.node.SameBroadcasts n' →
      Accepts P s.node.chain n'.chain s.accepted
        (n'.broadcasts + s.producer.accepted + s.handler.accepted) := by
    intro n' hsame
    unfold Process.accepted
    rw [show n'.broadcasts = s.node.broadcasts from hsame]
    exact Or.inl le_rfl
  cases hstep with
  | submit _ => exact hquiet rfl
  | advance _ call _ => exact hquiet ((Call.sameBroadcasts _ _).of_call call)
  | produce held call returns => exact (Production.step_accepts call).add_right _
  | receive free call _ =>
    unfold Process.accepted
    rw [free, add_right_comm, add_right_comm _ s.producer.accepted]
    exact (Handler.start_accepts call).add_right _
  | handle call returns =>
    unfold Process.accepted
    rw [add_right_comm, add_right_comm _ s.producer.accepted]
    exact (Handler.step_accepts call).add_right _
  | @greet addr _ _ call _ =>
    have hcarried : ∀ id, Marking.any.Carried C ((newMessage .getStatus []).bytes id) :=
      fun id => Marking.carried_any _
    exact hquiet
      ((Node.onServer_spoke (Server.send_spoke addr hcarried)).of_call call).sameBroadcasts
  | askPeers call _ =>
    exact hquiet ((Node.sendGetPeers_spoke (C := C) (K := .any) _).of_call call).sameBroadcasts
  | meet => exact hquiet rfl

/-- **A block is broadcast once.** In every run of a process that `NewServer` has made on a store
without blocks, whatever it is sent: the blocks that were broadcast are on its chain, and no two of
them have the same height. -/
theorem broadcast_once [FaithfulStorage P S] {fuel : ℕ} {opts : Node.ServerOpts E S} {n : Node E S}
    {es : List (Turn × Outcome Err Unit)} {s : Process E S}
    (hempty : ∀ i, ∃ e, Storage.get P opts.storage i = .err e)
    (hnew : Node.newServer P fuel opts = .ok n)
    (hrun : History (Process.Step P C) (.start n) es s) :
    (∀ b, Broadcast.block b ∈ s.node.launched → ∃ h, b.header = some h ∧
      s.node.chain.headers[h.height.toNat]? = some h) ∧
    ((s.node.launched.filterMap Broadcast.block?).map Block.height?).Nodup := by
  obtain ⟨-, -, -, hnone, -⟩ := Node.newServer_of_empty hempty hnew
  have hfirst : (Process.start n).accepted = 0 := by
    show ((n.launched.filterMap Broadcast.block? : List Block) : Multiset Block) + 0 + 0 = 0
    rw [hnone]
    rfl
  have hall : Rooted P s.node.chain ∧ s.Once := by
    refine hrun.invariant (I := fun s => Rooted P s.node.chain ∧ s.Once) ?_ ?_
    · refine ⟨.of_newServer hempty hnew, ⟨fun b hb => ?_, ?_⟩⟩
      · rw [hfirst] at hb
        exact absurd hb (Multiset.notMem_zero b)
      · rw [hfirst]
        exact Multiset.nodup_zero
    · intro s t o s' hs hstep
      obtain ⟨hrooted, hext⟩ := hstep.extends hs.1
      exact ⟨hrooted, hs.2.accepts hs.1.reached.grounded.tip hext.headers hstep.accepts⟩
  have hle : s.node.broadcasts ≤ s.accepted :=
    (Multiset.le_add_right _ _).trans (Multiset.le_add_right _ _)
  refine ⟨fun b hb => ?_, ?_⟩
  · have hmem : b ∈ s.node.broadcasts := List.mem_filterMap.mpr ⟨_, hb, rfl⟩
    exact hall.2.onChain b (Multiset.mem_of_le hle hmem)
  · have hnodup := Multiset.nodup_of_le (Multiset.map_le_map hle) hall.2.distinct
    exact hnodup

/-- A validator with nothing to do, on a chain without an engine. -/
structure Process.Solitary (s : Process PoWEngine MemoryStore) : Prop where
  idle : s.producer = .idle
  key : s.node.privateKey = some sampleKey
  pending : s.node.memPool.pending.txx = []
  engine : s.node.chain.consensus = none
  healthy : s.node.Healthy .sample

/-- It can make a block, and then it has nothing to do again. -/
theorem Process.Solitary.exists_block {s : Process PoWEngine MemoryStore} (hs : s.Solitary)
    (hroom : s.node.chain.headers.length < 2 ^ 32) (C : Codecs) :
    ∃ b s', History (Process.Step .sample C) s producerTurns s' ∧ s'.Solitary ∧
      s'.node.launched = s.node.launched ++ [.block b] ∧
      s'.node.chain.headers.length = s.node.chain.headers.length + 1 := by
  have htip := hs.healthy.chain.tip
  obtain ⟨current, hcurrent⟩ := htip.exists_header hroom
  obtain ⟨b, hbuild⟩ : ∃ b, s.node.chain.buildBlock .sample sampleKey current [] Node.sampleTick =
      .ok b := by
    unfold Blockchain.buildBlock Blockchain.withEngine
    rw [hs.engine]
    exact ⟨_, rfl⟩
  rw [← hs.pending] at hbuild
  have hassemble : s.node.chain.assembleBlock .sample sampleKey s.node.memPool.pending.txx
      Node.sampleTick = .ok b := by
    unfold Blockchain.assembleBlock
    rw [hcurrent, Outcome.bind_ok, hbuild]
  have hexec : (executeTransactions .sample 0 s.node.memPool.pending.txx
      s.node.chain.worldState).1 = .ok () := by
    rw [hs.pending]
    rfl
  obtain ⟨fuel, bc, hadd⟩ :=
    Threads.exists_accepted hs.healthy hs.engine hroom hassemble ⟨0, hexec⟩
  obtain ⟨h, -, -, hheaders⟩ := Blockchain.Called.headers_of_ok htip ⟨fuel, hadd⟩
  have hengine : bc.consensus = none := by
    obtain ⟨_, c', _, _, _, valid, -, -, -, rfl⟩ := Blockchain.addBlock_eq_ok hadd
    exact valid.consensus_of_none hs.engine
  have hfirst : s.producer.step .sample 0 sampleKey Node.sampleTick s.node =
      (.ok (.headerRead current), s.node) := by
    rw [hs.idle, Production.step, Act.get_bind_apply, hcurrent,
      Act.bind_apply_ok (Act.lift_apply _ _)]
    rfl
  refine ⟨b, _, .cons (.produce_ok Node.sampleTick 0 hs.key hfirst) <|
    .cons (.produce_ok Node.sampleTick 0 hs.key rfl) <|
    .cons (.produce_ok Node.sampleTick 0 hs.key (Threads.production_signs hbuild 0)) <|
    .cons (.produce_ok Node.sampleTick fuel hs.key (Threads.production_adds hadd)) <|
    .cons (.produce_ok Node.sampleTick 0 hs.key rfl) .start, ⟨rfl, hs.key, rfl, hengine, ?_⟩, rfl,
    ?_⟩
  · exact ⟨fun tx hmem => absurd hmem List.not_mem_nil, hs.healthy.chain.called ⟨fuel, hadd⟩⟩
  · show bc.headers.length = _
    rw [hheaders, List.length_append, List.length_singleton]

/-- The theorem for the node that makes two blocks. -/
theorem broadcast_once_sample : ∃ (C : Codecs) (b₁ b₂ : Block) (s : Process PoWEngine MemoryStore),
    History (Process.Step .sample C) (.start Node.sampleNode) (producerTurns ++ producerTurns) s ∧
      s.node.launched = [.block b₁, .block b₂] ∧
      (∀ b, Broadcast.block b ∈ s.node.launched → ∃ h, b.header = some h ∧
        s.node.chain.headers[h.height.toNat]? = some h) ∧
      b₁.height? ≠ b₂.height? := by
  have hsolitary : (Process.start Node.sampleNode).Solitary :=
    ⟨rfl, rfl, rfl, rfl, Node.Healthy.of_newServer Blockchain.holds_empty (by norm_num)
      (fun i h hh => absurd hh (by simp)) Node.newServer_sampleNode⟩
  have hroom : (Process.start Node.sampleNode).node.chain.headers.length < 2 ^ 32 :=
    Nat.one_lt_two_pow (by norm_num)
  obtain ⟨b₁, s₁, hs₁, hsolitary₁, hlaunched₁, hlength₁⟩ :=
    hsolitary.exists_block hroom Node.noContent
  have hroom₁ : s₁.node.chain.headers.length < 2 ^ 32 := by
    rw [hlength₁]
    show 1 + 1 < 2 ^ 32
    norm_num
  obtain ⟨b₂, s₂, hs₂, -, hlaunched₂, -⟩ := hsolitary₁.exists_block hroom₁ Node.noContent
  have hlaunched : s₂.node.launched = [.block b₁, .block b₂] := by
    rw [hlaunched₂, hlaunched₁]
    rfl
  have hempty : ∀ i, ∃ e, Storage.get .sample Node.sampleOpts.storage i = .err e :=
    fun i => ⟨.blockNotFound i, rfl⟩
  obtain ⟨honchain, hnodup⟩ :=
    broadcast_once hempty Node.newServer_sampleNode (hs₁.append hs₂)
  refine ⟨Node.noContent, b₁, b₂, s₂, hs₁.append hs₂, hlaunched, honchain, ?_⟩
  rw [hlaunched] at hnodup
  have hpair : [b₁.height?, b₂.height?].Nodup := hnodup
  rw [List.nodup_cons, List.mem_singleton] at hpair
  exact hpair.1

end Blockz
