import Blockz.Network.Permanence
import Blockz.Network.Sync

/-!
# One producer

A network in which one process holds a private key and the others do not. All blocks then come from
the chain of this process, whatever is lost, repeated or reordered on the way, and whatever the
goroutines of the processes do in between.

* `Marking.onChain` — the block is on a chain with the given headers.
* `Launched` — processes that `NewServer` has just made, on stores without blocks.
* `headers_of_producer` — every chain is a first part of the producer's chain, and so are the blocks
  that are stored. In particular no two processes disagree about a height.
-/

namespace Blockz

open Effect

variable {E S : Type} {P : Primitives} [ConsensusEngine P E] [Storage P S] {C : Codecs}

/-! ### Blocks of a chain -/

/-- The block is on a chain with these headers. -/
def Marking.onChain (hs : List Header) : Marking where
  block b := ∃ h, b.header = some h ∧ hs[h.height.toNat]? = some h
  transaction _ := True
  block_congr := by
    rintro b b' hexp ⟨h, hheader, hget⟩
    have hsame : b'.header = b.header := (congrArg Block.header hexp :)
    exact ⟨h, hsame.trans hheader, hget⟩
  transaction_congr _ _ := trivial

/-- A longer chain has the block as well. -/
theorem Marking.onChain_mono {hs hs' : List Header} (hlonger : hs <+: hs') :
    (Marking.onChain hs).Implies (.onChain hs') := by
  refine ⟨fun b hb => ?_, fun _ _ => trivial⟩
  obtain ⟨h, hheader, hget⟩ := hb
  exact ⟨h, hheader, header_kept hlonger hget⟩

/-- A first part of a list stays one when the next item is appended. -/
theorem concat_next {α : Type} {xs ys : List α} {x : α} (hfirst : xs <+: ys)
    (hx : ys[xs.length]? = some x) : xs ++ [x] <+: ys := by
  obtain ⟨rest, rfl⟩ := hfirst
  rw [List.getElem?_append_right le_rfl, Nat.sub_self] at hx
  cases rest with
  | nil => exact nomatch hx
  | cons y rest =>
    obtain rfl := Option.some.inj hx
    exact ⟨rest, List.append_assoc xs [y] rest⟩

/-- What is on the longer chain keeps the shorter one a first part of it. -/
theorem Blockchain.Called.prefix_of_onChain {bc bc' : Blockchain E S} {b : Block}
    {o : Outcome Err Unit} {hs : List Header} (htip : bc.TipNumbered) (hcall : Called P bc b o bc')
    (hfirst : bc.headers <+: hs) (hb : (Marking.onChain hs).block b) : bc'.headers <+: hs := by
  rcases hcall.headers_cases htip with hsame | ⟨h, hheader, hheight, hheaders⟩
  · rwa [hsame]
  · obtain ⟨h', hheader', hget⟩ := hb
    obtain rfl : h = h' := Option.some.inj (hheader.symm.trans hheader')
    rw [hheight] at hget
    rw [hheaders]
    exact concat_next hfirst hget

/-! ### The network -/

/-- New processes, of which no other one than `v` has a key. -/
structure Launched {κ : Type} (P : Primitives) [ConsensusEngine P E] [Storage P S] (v : κ)
    (c : κ → Process E S) : Prop where
  started : Started P c
  keys : ∀ k, k ≠ v → (c k).node.privateKey = none

/-- What each process has in common with the producer. -/
structure Follows (P : Primitives) [ConsensusEngine P E] [Storage P S] (C : Codecs)
    (producer s : Process E S) : Prop where
  rooted : Rooted P s.node.chain
  headers : s.node.chain.headers <+: producer.node.chain.headers
  marked : s.Marked P C (.onChain producer.node.chain.headers)

theorem Follows.mono {s s' t : Process E S} (h : Follows P C s t)
    (hlonger : s.node.chain.headers <+: s'.node.chain.headers) : Follows P C s' t :=
  ⟨h.rooted, h.headers.trans hlonger, h.marked.mono (Marking.onChain_mono hlonger)⟩

variable [SealingEngine P E] [FaithfulStorage P S]

/-- The producer takes a turn. -/
theorem Follows.lead (hC : C.Faithful) {s s' : Process E S} {t : Turn} {o : Outcome Err Unit}
    (hs : Follows P C s s) (hstep : Process.Step P C s t o s')
    (hreceived : ∀ moment msg, t = .receive moment msg →
      msg.data.Marked (.onChain s.node.chain.headers)) : Follows P C s' s' := by
  obtain ⟨hrooted, hext⟩ := hstep.extends hs.rooted
  have hK := Marking.onChain_mono hext.headers
  refine ⟨hrooted, List.prefix_rfl, ?_⟩
  refine (hs.marked.mono hK).step hC hstep (fun moment msg ht => (hreceived moment msg ht).mono hK)
    (fun _ _ _ => trivial) fun b _ _ hcall => ?_
  obtain ⟨h, hheader, hheight, hheaders⟩ := hcall.headers_of_ok hs.rooted.reached.grounded.tip
  refine ⟨h, hheader, ?_⟩
  rw [hheaders, hheight, List.getElem?_concat_length]

/-- Another process takes a turn. -/
theorem Follows.follow (hC : C.Faithful) {s t t' : Process E S} {turn : Turn}
    {o : Outcome Err Unit} (ht : Follows P C s t) (hkey : t.node.privateKey = none)
    (hstep : Process.Step P C t turn o t')
    (hreceived : ∀ moment msg, turn = .receive moment msg →
      msg.data.Marked (.onChain s.node.chain.headers)) : Follows P C s t' := by
  have hnokey : t.node.privateKey.isSome ≠ true := by
    rw [hkey]
    exact Bool.false_ne_true
  refine ⟨(hstep.extends ht.rooted).1, ?_, ?_⟩
  · rcases hstep.adds.chain with hsame | ⟨b, r, hhand, -, hcall⟩
    · rw [hsame]
      exact ht.headers
    · -- the block comes from the network
      refine hcall.prefix_of_onChain ht.rooted.reached.grounded.tip ht.headers ?_
      rcases hhand with ⟨-, -, hhand⟩ | ⟨-, -, -, hheld⟩
      · exact ht.marked.handler.atHand hhand
      · exact absurd hheld hnokey
  · exact ht.marked.step hC hstep hreceived (fun _ _ _ => trivial) fun b _ hheld _ =>
      absurd hheld hnokey

omit [SealingEngine P E] in
/-- A process that has just been made follows any other one. -/
theorem Follows.of_newServer {fuel fuel' : ℕ} {opts opts' : Node.ServerOpts E S} {n n' : Node E S}
    (hempty : ∀ i, ∃ e, Storage.get P opts.storage i = .err e)
    (hempty' : ∀ i, ∃ e, Storage.get P opts'.storage i = .err e)
    (hnew : Node.newServer P fuel opts = .ok n) (hnew' : Node.newServer P fuel' opts' = .ok n') :
    Follows P C (.start n) (.start n') := by
  obtain ⟨g, hg, hzero⟩ := Node.genesisBlock_header
  obtain ⟨-, hheaders, -⟩ := Node.newServer_of_empty hempty hnew
  obtain ⟨-, hheaders', hstored', -⟩ := Node.newServer_of_empty hempty' hnew'
  have hsame : (Process.start n').node.chain.headers = (Process.start n).node.chain.headers :=
    hheaders'.trans hheaders.symm
  refine ⟨.of_newServer hempty' hnew', ?_, .of_newServer hnew' fun i b hget => ?_⟩
  · rw [hsame]
  · have hheader : b.header = Node.genesisBlock.header :=
      (congrArg Block.header (hstored' i b hget) :)
    refine ⟨g, hheader.trans hg, ?_⟩
    show n.chain.headers[g.height.toNat]? = some g
    rw [hheaders, hg, hzero]
    rfl

/-- **One producer, one chain.** Of any number of new processes, with any engine, one has a key. In
every run, whatever is submitted to them, whatever is lost, repeated or reordered between them, and
however their goroutines interleave: the headers of each process are a first part of the headers of
the producer, and a block that it returns for a height is the one with the producer's header at this
height. -/
theorem headers_of_producer {κ : Type} [DecidableEq κ] (hC : C.Faithful) {v : κ}
    {c₀ c : κ → Process E S} {es : List ((κ × Turn) × Outcome Err Unit)} (hnew : Launched P v c₀)
    (hrun : History (Swarm (Process.Step P C) (Arrives C)) c₀ es c) (k : κ) :
    (c k).node.chain.headers <+: (c v).node.chain.headers ∧
      ∀ i b, (c k).node.chain.getBlock P i = .ok b →
        ∃ h, b.header = some h ∧ (c v).node.chain.headers[i.toNat]? = some h := by
  have hstart : ∀ k, Follows P C (c₀ v) (c₀ k) ∧ (k ≠ v → (c₀ k).node.privateKey = none) := by
    intro k
    obtain ⟨fuel, opts, n, hn, hk, hempty⟩ := hnew.started k
    obtain ⟨fuel', opts', n', hn', hv, hempty'⟩ := hnew.started v
    refine ⟨?_, hnew.keys k⟩
    rw [hk, hv]
    exact .of_newServer hempty' hempty hn' hn
  have hall : ∀ k, Follows P C (c v) (c k) ∧ (k ≠ v → (c k).node.privateKey = none) := by
    refine Swarm.led (v := v)
      (R := fun k s t => Follows P C s t ∧ (k ≠ v → t.node.privateKey = none)) hrun hstart ?_ ?_
    · intro c t o s' hc harrives hstep
      refine ⟨⟨?_, fun hne => absurd rfl hne⟩, fun k hne => ⟨?_, (hc k).2⟩⟩
      · exact (hc v).1.lead hC hstep (harrives.marked hC fun k => (hc k).1.marked)
      · exact (hc k).1.mono (hstep.extends (hc v).1.rooted).2.headers
    · intro c k t o s' hne hc harrives hstep
      refine ⟨?_, fun _ => ?_⟩
      · exact (hc k).1.follow hC ((hc k).2 hne) hstep
          (harrives.marked hC fun k => (hc k).1.marked)
      · exact hstep.adds.privateKey.trans ((hc k).2 hne)
  refine ⟨(hall k).1.headers, fun i b hget => ?_⟩
  obtain ⟨h, hheader, hmark⟩ := (hall k).1.marked.node.stored i b hget
  obtain ⟨h', hheader', rfl⟩ := (hall k).1.rooted.reached.grounded.store i b hget
  obtain rfl : h = h' := Option.some.inj (hheader.symm.trans hheader')
  exact ⟨h, hheader, hmark⟩

/-! ### Two processes -/

section Pair

instance countable_char : Countable Char :=
  Function.Injective.countable fun _ _ => Char.toNat_inj.mp

instance countable_string : Countable String :=
  Function.Injective.countable fun _ _ => String.toList_inj.mp

deriving instance Countable for StatusMessage

omit [ConsensusEngine P E] [Storage P S] [SealingEngine P E] [FaithfulStorage P S] in
/-- What is asked of gob can be had. -/
theorem Codecs.exists_faithful : ∃ C : Codecs, C.Faithful ∧
    (∀ b, C.block.RoundTrips Block.exported b) ∧
    (∀ tx, C.transaction.RoundTrips Transaction.exported tx) ∧
    (∀ batch, C.blocks.RoundTrips BlocksMessage.exported batch) ∧
    (∀ msg, C.getBlocks.RoundTrips (fun msg => msg) msg) ∧
    ∀ st, C.status.RoundTrips (fun st => st) st := by
  obtain ⟨transaction, htransaction⟩ := GobCodec.exists_roundTrips Transaction.exported
  obtain ⟨block, hblock⟩ := GobCodec.exists_roundTrips Block.exported
  obtain ⟨blocks, hblocks⟩ := GobCodec.exists_roundTrips BlocksMessage.exported
  obtain ⟨getBlocks, hgetBlocks⟩ := GobCodec.exists_roundTrips fun msg : GetBlocksMessage => msg
  obtain ⟨status, hstatus⟩ := GobCodec.exists_roundTrips fun st : StatusMessage => st
  -- what was encoded in one way is decoded in one way
  have hunique : ∀ {ν : Type} {c : GobCodec ν} {carried : ν → ν}, (∀ x, c.RoundTrips carried x) →
      ∀ {x x' : ν} {data : List UInt8}, c.encode x = .ok data → c.decode data = .ok x' →
        x' = carried x := by
    intro ν c carried hc x x' data hencode hdecode
    obtain ⟨data', hencode', hdecode'⟩ := hc x
    obtain rfl := Outcome.ok.inj (hencode'.symm.trans hencode)
    exact Outcome.ok.inj (hdecode.symm.trans hdecode')
  refine ⟨⟨transaction, block, getBlocks, blocks, status, Node.noContent.sharePeers⟩, ⟨?_, ?_, ?_⟩,
    hblock, htransaction, hblocks, hgetBlocks, hstatus⟩
  · intro tx tx' data hencode hdecode
    rw [hunique htransaction hencode hdecode]
    rfl
  · intro b b' data hencode hdecode
    rw [hunique hblock hencode hdecode, Block.exported_exported]
  · intro batch batch' data hencode hdecode
    rw [hunique hblocks hencode hdecode]
    show BlocksMessage.mk ((batch.blocks.map Block.exported).map Block.exported) = ⟨_⟩
    rw [List.map_map]
    exact congrArg BlocksMessage.mk (List.map_congr_left fun b _ => b.exported_exported)

/-- A validator (`true`) and a node without a key. -/
def pairStart (k : Bool) : Process PoWEngine MemoryStore :=
  .start { Node.sampleNode with privateKey := if k then some sampleKey else none }

theorem launched_pairStart : Launched .sample true pairStart where
  started k := ⟨1, { Node.sampleOpts with privateKey := if k then some sampleKey else none }, _,
    rfl, rfl, fun i => ⟨.blockNotFound i, rfl⟩⟩
  keys k hne := by
    rw [Bool.eq_false_iff.mpr hne]
    rfl

/-- The validator makes a block, which the other process gets and adds. -/
theorem exists_pairRun : ∃ (C : Codecs) (es : List ((Bool × Turn) × Outcome Err Unit))
    (c : Bool → Process PoWEngine MemoryStore), C.Faithful ∧
      History (Swarm (Process.Step .sample C) (Arrives C)) pairStart es c ∧
      (∀ e ∈ es, e.2 = .ok ()) ∧
      (c true).node.chain.headers.length = 2 ∧ (c false).node.chain.headers.length = 2 := by
  obtain ⟨C, hC, hblock, -⟩ := Codecs.exists_faithful
  obtain ⟨b, fuel, bc, -, hadd, hproduce⟩ := exists_producerRun
  obtain ⟨data, hencode, hdecode⟩ := hblock b
  obtain ⟨bd, hcopy, hm⟩ := (Blockchain.Mirrors.refl Blockchain.sampleChain).addBlock hadd
    b.exported_exported
  obtain ⟨h, -, -, hheaders⟩ := Blockchain.Called.headers_of_ok
    Blockchain.reached_sampleChain.grounded.tip ⟨fuel, hadd⟩
  have hlength : bc.headers.length = 2 := by
    rw [hheaders, List.length_append]
    rfl
  obtain ⟨s, hs, hchain, hlaunched, -⟩ :
      ∃ s, History (Process.Step .sample C) (pairStart true) producerTurns s ∧ _ := hproduce C
  obtain ⟨t, ht, hcopied⟩ := exists_deliveryRun (P := .sample) (C := C) (s := pairStart false)
    (r := .ok ()) rfl (Act.attempt_eq_ok.mpr hcopy)
  -- first the one, then the other
  have hticks : ∀ s', ∀ e ∈ producerTurns,
      Arrives C (Function.update pairStart true s') true e.1 := by
    intro s' e he
    rw [List.eq_of_mem_replicate he]
    trivial
  have hother : Function.update pairStart true s false = pairStart false :=
    Function.update_of_ne Bool.false_ne_true _ _
  rw [← hother] at ht
  have hmem : Broadcast.block b ∈ s.node.launched := by
    rw [hlaunched]
    exact List.mem_singleton_self _
  have hmessage : (Broadcast.block b).message C = .ok (newMessage .block data) := by
    show (C.block.encode b >>= fun data => .ok (newMessage .block data)) = _
    rw [hencode]
    rfl
  have hreceived : ∀ t', ∀ e ∈ deliveryTurns b.exported,
      Arrives C (Function.update (Function.update pairStart true s) false t') false e.1 := by
    intro t' e he
    rcases List.mem_cons.mp he with rfl | he
    · refine .of_broadcast (j := true) hmem hmessage ?_ _ _
      unfold Codecs.decode
      rw [hdecode]
      rfl
    · rw [List.mem_singleton.mp he]
      trivial
  refine ⟨C, _, _, hC, (Swarm.alone hs hticks).append (Swarm.alone ht hreceived), ?_, ?_, ?_⟩
  · simp [producerTurns, deliveryTurns]
  · show s.node.chain.headers.length = 2
    rw [hchain, hlength]
  · show t.node.chain.headers.length = 2
    rw [hcopied, hm.headers, hlength]

/-- The theorem for the two of them. -/
theorem headers_of_producer_pair : ∃ (C : Codecs) (es : List ((Bool × Turn) × Outcome Err Unit))
    (c : Bool → Process PoWEngine MemoryStore),
      History (Swarm (Process.Step .sample C) (Arrives C)) pairStart es c ∧
      (c false).node.chain.headers.length = 2 ∧
      (c false).node.chain.headers <+: (c true).node.chain.headers := by
  obtain ⟨C, es, c, hC, hrun, -, -, hlength⟩ := exists_pairRun
  exact ⟨C, es, c, hrun, hlength, (headers_of_producer hC launched_pairStart hrun false).1⟩

end Pair

end Blockz
