import Blockz.Chain.Simulation
import Blockz.Network.Server

/-!
# A sync round

Node `B` has the first blocks of node `A`'s chain and lacks the others. In a round `B` asks for
them, `A` answers, and `B` adds what it gets: three handlers, and two messages that travel in
between.

The range of the request, the loop of the answer and the additions have to fit together. What ties
them is the list of blocks that `A` has added, `Blockchain.added`: the store of `A` holds them at
consecutive heights (`Blockchain.Numbered`), the loop reads off a segment of them
(`collectBlocks_of_stored`), and a copy that lacks this segment catches up by adding it
(`Blockchain.Mirrors.catch_up`).

`round_iff` puts this together. The one obstacle is the counter of the loop, a `uint32` that is
compared with the height of `A`: at height `2 ^ 32 - 1` the loop does not end.
-/

namespace Blockz

open Effect

variable {P : Primitives} {C : Codecs} {E : Type}

namespace Server

/-! ### The three handlers -/

/-- **The loop reads off what is stored.** The blocks `xs` stand at the heights from `i` on, up to
the last one that is asked for. -/
theorem collectBlocks_of_stored {bc : Blockchain E MemoryStore} {last : UInt32} {xs : List Block} :
    ∀ (i fuel : ℕ) (acc : List Block), last.toNat + 1 = i + xs.length → i + xs.length < 2 ^ 32 →
      xs.length < fuel →
      (∀ (j : ℕ) (x : Block), xs[j]? = some x → bc.store.blockAt (UInt32.ofNat (i + j)) = some x) →
      ∃ blocks, collectBlocks P bc last fuel (UInt32.ofNat i) acc = .ok (acc ++ blocks) ∧
        blocks.map Block.exported = xs ∧ ∀ b ∈ blocks, ∃ k, bc.store.get k = .ok b := by
  induction xs with
  | nil =>
    -- the counter stands behind the last height, without having wrapped
    intro i fuel acc hlast hroom hfuel _
    obtain ⟨fuel, rfl⟩ := Nat.exists_eq_add_of_lt hfuel
    have hpast : ¬ UInt32.ofNat i ≤ last := by
      rw [UInt32.le_iff_toNat_le, UInt32.toNat_ofNat_of_lt' (by exact hroom)]
      rw [List.length_nil] at hlast
      omega
    refine ⟨[], ?_, rfl, fun b hb => absurd hb (by simp)⟩
    rw [collectBlocks, if_neg hpast, List.append_nil]
  | cons x xs ih =>
    intro i fuel acc hlast hroom hfuel hstored
    rw [List.length_cons] at hlast hroom hfuel
    obtain ⟨fuel, rfl⟩ : ∃ n, fuel = n + 1 := ⟨fuel - 1, by omega⟩
    have hwithin : UInt32.ofNat i ≤ last := by
      have hi : i < UInt32.size := by
        show i < 2 ^ 32
        omega
      rw [UInt32.le_iff_toNat_le, UInt32.toNat_ofNat_of_lt' hi]
      omega
    obtain ⟨stored, hget, hexp⟩ := MemoryStore.blockAt_eq_some.mp (hstored 0 x rfl)
    have hrest : ∀ (j : ℕ) (y : Block), xs[j]? = some y →
        bc.store.blockAt (UInt32.ofNat (i + 1 + j)) = some y := by
      intro j y hy
      rw [Nat.add_right_comm, Nat.add_assoc]
      exact hstored (j + 1) y hy
    obtain ⟨blocks, hloop, hblocks, hall⟩ :=
      ih (i + 1) fuel (acc ++ [stored]) (by omega) (by omega) (by omega) hrest
    refine ⟨stored :: blocks, ?_, ?_, ?_⟩
    · have hhead : bc.getBlock P (UInt32.ofNat i) = .ok stored := hget
      have hnext : UInt32.ofNat i + 1 = UInt32.ofNat (i + 1) := (UInt32.ofNat_add i 1).symm
      rw [collectBlocks, if_pos hwithin, hhead, Outcome.bind_ok, hnext, hloop, List.append_assoc]
      rfl
    · rw [List.map_cons, hexp, hblocks]
    · intro b hb
      rcases List.mem_cons.mp hb with rfl | hb
      · exact ⟨_, hget⟩
      · exact hall b hb

/-- How `B` comes to ask for blocks. -/
inductive Ask
  -- a `StatusMessage` comes in
  | status
  -- a block that came in was too high
  | sync
  deriving DecidableEq, Repr

namespace Ask

variable {S : Type} {A B : Server E S}

/-- The handler by which `B` asks `A`. -/
def run (C : Codecs) (addrA : NetAddr) (A : Server E S) : Ask → Act (Server E S) Err Unit
  | status => processStatusMessage C addrA A.status
  | sync => requestBlocksSync C addrA

/-- What it asks for. -/
def request (A B : Server E S) : Ask → GetBlocksMessage
  | status => ⟨B.chain.height + 1, A.chain.height⟩
  | sync => ⟨B.chain.height + 1, 0⟩

theorem run_of_behind (ask : Ask) {addrA : NetAddr} (hbehind : B.chain.height < A.chain.height) :
    ask.run C addrA A B = sendGetBlocks C addrA (ask.request A B) B := by
  cases ask with
  | sync => rfl
  | status =>
    show processStatusMessage C addrA A.status B = _
    unfold processStatusMessage
    rw [Act.get_bind_apply]
    exact congrFun (if_pos hbehind) B

theorem request_first (ask : Ask) : (ask.request A B).first = B.chain.height + 1 := by
  cases ask <;> rfl

/-- Either way `A` reads the request as one for everything it has. -/
theorem lastRequested_request (ask : Ask) : A.lastRequested (ask.request A B) = A.chain.height := by
  unfold lastRequested
  cases ask with
  | status => exact ite_self _
  | sync => exact if_pos (Or.inl rfl)

end Ask

theorem processGetBlocks_of_collected {S : Type} [Storage P S] {A : Server E S} {addrB : NetAddr}
    {fuel : ℕ} {msg : GetBlocksMessage} {blocks : List Block} {data : List UInt8}
    (hreach : A.Reaches addrB)
    (hcollect : collectBlocks P A.chain (A.lastRequested msg) fuel msg.first [] = .ok blocks)
    (hencode : C.blocks.encode ⟨blocks⟩ = .ok data) :
    processGetBlocks P C fuel addrB msg A =
      (.ok (), A.withSent addrB (newMessage .blocks data)) := by
  unfold processGetBlocks
  rw [Act.get_bind_apply, hcollect, Act.bind_apply_ok (Act.lift_apply _ _), hencode,
    Act.bind_apply_ok (Act.lift_apply _ _)]
  exact send_of_reaches hreach _

/-! ### The round -/

section Round

variable [ConsensusEngine P E]

/-- **A round in which no handler fails.** `B` asks, the request is decoded and handled by `A`, and
the answer, with the blocks `blocks`, is decoded and handled by `B`. -/
inductive Round (P : Primitives) [ConsensusEngine P E] (C : Codecs) (fuel : ℕ)
    (addrA addrB : NetAddr) (ask : Ask) (A B : Server E MemoryStore) :
    List Block → Server E MemoryStore → Server E MemoryStore → Prop
  | completed {A' B₁ B' : Server E MemoryStore} {request reply : List (Gob.Frame Message)}
      {msg : GetBlocksMessage} {blocks : List Block}
      (asked : ask.run C addrA A B = (.ok (), B₁))
      (requested : B₁.sent = B.sent ++ [⟨addrA, request⟩])
      (received : defaultRPCDecodeFunc C ⟨addrB, request⟩ = .ok ⟨addrB, .getBlocks msg⟩)
      (served : processGetBlocks P C fuel addrB msg A = (.ok (), A'))
      (replied : A'.sent = A.sent ++ [⟨addrB, reply⟩])
      (returned : defaultRPCDecodeFunc C ⟨addrA, reply⟩ = .ok ⟨addrA, .blocks ⟨blocks⟩⟩)
      (added : processBlocks P fuel ⟨blocks⟩ B₁ = (.ok (), B')) :
      Round P C fuel addrA addrB ask A B blocks A' B'

/-- `A` was built from `bc₀` by the calls `es`, and `B` from the same chain by the calls `es'`,
which are on the first blocks of `A`. The chain `bc₀` has nothing but its genesis block, as both
constructors leave it, and possibly an engine. -/
structure Behind (P : Primitives) [ConsensusEngine P E] (bc₀ : Blockchain E MemoryStore)
    (A B : Server E MemoryStore) (es es' : List (Block × Outcome Err Unit)) : Prop where
  genesis : bc₀.headers.length = 1
  built : History (Blockchain.Succeeded P) bc₀ es A.chain
  copied : History (Blockchain.Succeeded P) bc₀ es' B.chain
  same : Blockchain.added es' = (Blockchain.added es).take es'.length
  behind : es'.length < es.length

/-- Gob carries requests, and the blocks that `A` has stored. -/
structure Carries (C : Codecs) (A : Server E MemoryStore) : Prop where
  getBlocks : ∀ msg, C.getBlocks.RoundTrips (fun msg => msg) msg
  blocks : ∀ blocks : List Block, (∀ b ∈ blocks, ∃ k, A.chain.store.get k = .ok b) →
    C.blocks.RoundTrips BlocksMessage.exported ⟨blocks⟩

variable {bc₀ : Blockchain E MemoryStore} {A B : Server E MemoryStore} {addrA addrB : NetAddr}
  {es es' : List (Block × Outcome Err Unit)}

theorem Behind.heights (h : Behind P bc₀ A B es es') :
    A.chain.headers.length = es.length + 1 ∧ A.chain.headers.length ≤ 2 ^ 32 ∧
      A.chain.height.toNat = es.length ∧ B.chain.height.toNat = es'.length := by
  have hA := Blockchain.Numbered.of_run h.genesis h.built
  have hB := Blockchain.Numbered.of_run h.genesis h.copied
  exact ⟨hA.length, hA.fits, hA.toNat_height, hB.toNat_height⟩

theorem Behind.height_lt (h : Behind P bc₀ A B es es') : B.chain.height < A.chain.height := by
  obtain ⟨-, -, hA, hB⟩ := h.heights
  rw [UInt32.lt_iff_toNat_lt, hA, hB]
  exact h.behind

omit [ConsensusEngine P E] in
/-- The request goes out, and it arrives. -/
theorem Ask.carried (ask : Ask) (hgob : Carries C A) (hreach : B.Reaches addrA)
    (hbehind : B.chain.height < A.chain.height) (addrB : NetAddr) :
    ∃ request, ask.run C addrA A B = (.ok (), { B with sent := B.sent ++ [⟨addrA, request⟩] }) ∧
      defaultRPCDecodeFunc C ⟨addrB, request⟩ =
        .ok ⟨addrB, .getBlocks (ask.request A B)⟩ := by
  obtain ⟨data, hencode, hdecode⟩ := hgob.getBlocks (ask.request A B)
  refine ⟨(newMessage .getBlocks data).bytes B.gobId, ?_, ?_⟩
  · rw [ask.run_of_behind hbehind, sendGetBlocks_of_reaches hreach hencode]
    rfl
  · rw [defaultRPCDecodeFunc_newMessage]
    unfold Codecs.decode
    rw [hdecode]
    rfl

/-- **The answer consists of the blocks that `B` lacks.** -/
theorem Behind.collected (h : Behind P bc₀ A B es es') (hroom : A.chain.headers.length < 2 ^ 32)
    {fuel : ℕ} (hfuel : es.length < fuel) :
    ∃ blocks, collectBlocks P A.chain A.chain.height fuel (B.chain.height + 1) [] = .ok blocks ∧
      blocks.map Block.exported = Blockchain.added (es.drop es'.length) ∧
      ∀ b ∈ blocks, ∃ k, A.chain.store.get k = .ok b := by
  obtain ⟨hlen, -, hA, hB⟩ := h.heights
  have hbehind := h.behind
  have hmissing : (Blockchain.added (es.drop es'.length)).length = es.length - es'.length := by
    unfold Blockchain.added
    rw [List.length_map, List.length_drop]
  have hfirst : B.chain.height + 1 = UInt32.ofNat (es'.length + 1) := by
    rw [UInt32.ofNat_add, ← hB, UInt32.ofNat_toNat]
    rfl
  have hstored := (Blockchain.Numbered.of_run h.genesis h.built).stored
  rw [hfirst]
  refine collectBlocks_of_stored _ _ [] (by omega) (by omega) (by omega) ?_
  intro j x hx
  -- the `j`-th block that is missing is the block with number `es'.length + j`
  rw [Nat.add_right_comm]
  refine hstored (es'.length + j) x ?_
  unfold Blockchain.added at hx ⊢
  rwa [List.map_drop, List.getElem?_drop] at hx

/-- `B` gets there by adding them. -/
theorem Behind.catch_up (h : Behind P bc₀ A B es es') :
    ∃ fuel₀, ∀ fuel ≥ fuel₀, ∃ bd,
      Act.forEach (Blockchain.addBlock P fuel) (Blockchain.added (es.drop es'.length)) B.chain =
        (.ok (), bd) ∧ Blockchain.Mirrors A.chain bd := by
  have hbuilt := h.built
  rw [← List.take_append_drop es'.length es] at hbuilt
  obtain ⟨mid, hfirst, hrest⟩ := hbuilt.split
  exact (Blockchain.Mirrors.of_firstBlocks hfirst h.copied h.same).catch_up hrest

/-- The blocks that `B` lacks are those at the heights from `B`'s next one up to `A`'s. -/
theorem Behind.numbered (h : Behind P bc₀ A B es es') :
    (Blockchain.added (es.drop es'.length)).map some =
      (List.range' (es'.length + 1) (es.length - es'.length)).map fun k =>
        A.chain.store.blockAt (UInt32.ofNat k) := by
  have hsegment := (Blockchain.Numbered.of_run h.genesis h.built).segment es'.length le_rfl
  rwa [List.take_length] at hsegment

/-- At the greatest height no round completes, whatever the bound on the number of steps. -/
theorem Behind.not_round (h : Behind P bc₀ A B es es') (hgob : Carries C A)
    (hreach : B.Reaches addrA) (hfull : A.chain.headers.length = 2 ^ 32) (ask : Ask) {fuel : ℕ}
    {blocks : List Block} {A' B' : Server E MemoryStore} :
    ¬ Round P C fuel addrA addrB ask A B blocks A' B' := by
  rintro ⟨asked, requested, received, served, -, -, -⟩
  obtain ⟨request, hrun, hdecode⟩ := ask.carried hgob hreach h.height_lt addrB
  -- the message that `A` handles is the one that `B` has sent
  obtain ⟨-, rfl⟩ := Prod.mk.inj (hrun.symm.trans asked)
  obtain rfl := (Envelope.mk.inj (List.singleton_inj.mp (List.append_cancel_left requested))).2
  obtain rfl := Payload.getBlocks.inj
    (DecodedMessage.mk.inj (Outcome.ok.inj (hdecode.symm.trans received))).2
  unfold processGetBlocks at served
  rw [Act.get_bind_apply, Act.lift_bind_eq_ok] at served
  obtain ⟨collected, hcollect, -⟩ := served
  rw [ask.lastRequested_request] at hcollect
  refine collectBlocks_max ?_ _ _ _ _ hcollect
  obtain ⟨hlen, -, hA, -⟩ := h.heights
  omega

/-- **When a sync round brings `B` up to date.** For all sufficient bounds on the number of steps
the round completes without an error, the answer consists of the blocks from `B`'s next height up to
`A`'s height, in this order, and the chain of `B` is then a copy of the chain of `A`: this is so
exactly when the height of `A` is less than `2 ^ 32 - 1`. -/
theorem round_iff (h : Behind P bc₀ A B es es') (hgob : Carries C A) (hreachA : A.Reaches addrB)
    (hreachB : B.Reaches addrA) (ask : Ask) :
    (∃ fuel₀, ∀ fuel ≥ fuel₀, ∃ blocks A' B', Round P C fuel addrA addrB ask A B blocks A' B' ∧
        blocks.map some = (List.range' (es'.length + 1) (es.length - es'.length)).map (fun k =>
          A.chain.store.blockAt (UInt32.ofNat k)) ∧
        A'.chain = A.chain ∧ Blockchain.Mirrors A.chain B'.chain) ↔
      A.chain.headers.length < 2 ^ 32 := by
  constructor
  · rintro ⟨fuel₀, hround⟩
    obtain ⟨blocks, A', B', hcompleted, -⟩ := hround fuel₀ le_rfl
    -- there is no chain beyond the greatest height, so this one is at it
    have hfits := h.heights.2.1
    by_contra hroom
    exact h.not_round hgob hreachB (by omega) ask hcompleted
  · intro hroom
    -- rounds of the machine for the additions, and rounds of the loop for the answer
    obtain ⟨fuel₁, hcatch⟩ := h.catch_up
    refine ⟨max fuel₁ (es.length + 1), fun fuel hle => ?_⟩
    obtain ⟨request, hrun, hdecode⟩ := ask.carried hgob hreachB h.height_lt addrB
    obtain ⟨stored, hcollect, hexp, hall⟩ := h.collected hroom
      (Nat.lt_of_lt_of_le (Nat.lt_succ_self _) ((Nat.le_max_right _ _).trans hle))
    rw [← ask.request_first (A := A), ← ask.lastRequested_request (B := B)] at hcollect
    obtain ⟨data, hencode, hdata⟩ := hgob.blocks stored hall
    obtain ⟨bd, hloop, hcopy⟩ := hcatch fuel ((Nat.le_max_left _ _).trans hle)
    have hadded : processBlocks P fuel ⟨Blockchain.added (es.drop es'.length)⟩
        { B with sent := B.sent ++ [⟨addrA, request⟩] } =
          (.ok (), { B with sent := B.sent ++ [⟨addrA, request⟩], chain := bd }) := by
      unfold processBlocks
      rw [Act.on_apply]
      show ((Act.forEach _ _ B.chain).1, _) = _
      rw [hloop]
    have hreturned : defaultRPCDecodeFunc C ⟨addrA, (newMessage .blocks data).bytes A.gobId⟩ =
        .ok ⟨addrA, .blocks ⟨Blockchain.added (es.drop es'.length)⟩⟩ := by
      rw [defaultRPCDecodeFunc_newMessage]
      unfold Codecs.decode
      rw [hdata]
      unfold BlocksMessage.exported
      rw [hexp]
      rfl
    have hserved := processGetBlocks_of_collected hreachA hcollect hencode
    exact ⟨_, _, _, .completed hrun rfl hdecode hserved rfl hreturned hadded, h.numbered, rfl,
      hcopy⟩

end Round

end Server

/-! ### A round of one block -/

deriving instance Countable for GetBlocksMessage, BlocksMessage

namespace Server

/-- What is asked of gob can be had, whatever `A` has stored. -/
theorem exists_carries (A : Server E MemoryStore) : ∃ C : Codecs, Carries C A := by
  obtain ⟨getBlocks, hgetBlocks⟩ := GobCodec.exists_roundTrips fun msg : GetBlocksMessage => msg
  obtain ⟨blocks, hblocks⟩ := GobCodec.exists_roundTrips BlocksMessage.exported
  have silent : ∀ ν : Type, Nonempty (GobCodec ν) := fun _ =>
    ⟨⟨fun _ => .err (.library ""), fun _ => .err (.library "")⟩⟩
  exact ⟨⟨(silent _).some, (silent _).some, getBlocks, blocks, (silent _).some, (silent _).some⟩,
    hgetBlocks, fun bs _ => hblocks ⟨bs⟩⟩

/-- A node that can send anything to anyone. -/
def sampleNode (id : String) (chain : Blockchain PoWEngine MemoryStore) :
    Server PoWEngine MemoryStore where
  id := id
  gobId := 65
  chain := chain
  peers _ := some ⟨fun _ _ => .ok ()⟩
  sent := []

theorem sampleNode_chain (id : String) (chain : Blockchain PoWEngine MemoryStore) :
    (sampleNode id chain).chain = chain := rfl

theorem reaches_sampleNode (id : String) (chain : Blockchain PoWEngine MemoryStore)
    (addr : NetAddr) : (sampleNode id chain).Reaches addr :=
  ⟨⟨fun _ _ => .ok ()⟩, rfl, fun _ => rfl⟩

/-- A node with one block under proof of work. -/
def minedNode : Server PoWEngine MemoryStore :=
  sampleNode "A" (Blockchain.addBlock .sample 1 Blockchain.minedBlock Blockchain.minedChain).2

/-- A node without it gets it in one round. -/
theorem round_iff_minedNode :
    minedNode.chain.headers.length = 2 ∧ ∃ (C : Codecs) (fuel₀ : ℕ), ∀ fuel ≥ fuel₀,
      ∃ blocks A' B',
        Round .sample C fuel "A" "B" .status minedNode (sampleNode "B" Blockchain.minedChain)
          blocks A' B' ∧
        blocks.map some = [minedNode.chain.store.blockAt 1] ∧ A'.chain = minedNode.chain ∧
        Blockchain.Mirrors minedNode.chain B'.chain := by
  have hok : (Blockchain.addBlock .sample 1 Blockchain.minedBlock Blockchain.minedChain).1 =
      .ok () := by decide +kernel
  have hcall : Blockchain.Succeeded .sample Blockchain.minedChain Blockchain.minedBlock (.ok ())
      (Blockchain.addBlock .sample 1 Blockchain.minedBlock Blockchain.minedChain).2 :=
    ⟨rfl, 1, Act.eq_mk_of_fst hok⟩
  have hrun : History (Blockchain.Succeeded .sample) Blockchain.minedChain
      [(Blockchain.minedBlock, .ok ())] minedNode.chain := by
    unfold minedNode
    rw [sampleNode_chain]
    exact .call .start hcall
  have hbehind : Behind .sample Blockchain.minedChain minedNode
      (sampleNode "B" Blockchain.minedChain) [(Blockchain.minedBlock, .ok ())] [] :=
    ⟨rfl, hrun, .start, rfl, Nat.one_pos⟩
  have hlen : minedNode.chain.headers.length = 2 := by decide +kernel
  obtain ⟨C, hgob⟩ := exists_carries minedNode
  refine ⟨hlen, C, (round_iff hbehind hgob (reaches_sampleNode _ _ _)
    (reaches_sampleNode _ _ _) .status).mpr ?_⟩
  rw [hlen]
  norm_num

end Server

/-! ### A chain of the greatest height -/

/-- Without an engine, a signed block without transactions is accepted on top of the last header. -/
theorem Blockchain.addBlock_sampleBlock {bc : Blockchain PoWEngine MemoryStore} {n : ℕ}
    {prev : Header} (hroom : n + 1 < 2 ^ 32) (hengine : bc.consensus = none)
    (hlen : bc.headers.length = n + 1) (hprev : bc.headers[n]? = some prev)
    (hheight : prev.height.toNat = n) (coinbase : Address) :
    ∃ bc', addBlock .sample 0 (sampleBlock prev [] coinbase) bc = (.ok (), bc') ∧
      bc'.headers = bc.headers ++ [sampleHeader prev [] coinbase] ∧ bc'.consensus = none := by
  have hlast : bc.heightLocked.toNat = n :=
    (toNat_heightLocked (by omega) (by omega)).trans (by omega)
  have hsame : prev.height = bc.heightLocked := UInt32.toNat_inj.mp (by rw [hheight, hlast])
  have hbelow : prev.height + 1 - 1 = prev.height := UInt32.add_sub_cancel _ _
  have hnext : (prev.height + 1).toNat = n + 1 := by
    rw [UInt32.toNat_add, hheight]
    exact Nat.mod_eq_of_lt hroom
  have hposition : bc.checkPosition .sample (sampleBlock prev [] coinbase)
      (sampleHeader prev [] coinbase) = .ok () := by
    refine checkPosition_eq_ok.mpr ⟨?_, ?_, prev, ?_, rfl⟩
    · show ¬ prev.height + 1 ≤ bc.heightLocked
      rw [UInt32.le_iff_toNat_le, hnext, hlast]
      omega
    · show prev.height + 1 = bc.heightLocked + 1
      rw [hsame]
    · show bc.getHeaderLocked (prev.height + 1 - 1) = .ok prev
      have hinside : ¬ UInt32.ofNat bc.headers.length ≤ prev.height := by
        rw [UInt32.le_iff_toNat_le, hlen, UInt32.toNat_ofNat_of_lt' hroom, hheight]
        omega
      unfold getHeaderLocked
      rw [hbelow, if_neg hinside, hheight, hprev]
      rfl
  have hconsensus : verifyConsensus .sample (sampleHeader prev [] coinbase) bc =
      (.ok (), { bc with consensus := none }) := by
    unfold verifyConsensus
    rw [hengine]
    show (_, bc) = (_, _)
    rw [← hengine]
  have valid : Valid .sample bc (sampleBlock prev [] coinbase) (sampleHeader prev [] coinbase)
      none := ⟨rfl, hposition, hconsensus, verify_sampleBlock prev coinbase⟩
  exact ⟨_, addBlock_of_stages valid rfl rfl (MemoryStore.put_apply rfl _), rfl, rfl⟩

/-- A run of any length for which there are heights. -/
theorem Blockchain.exists_run (n : ℕ) (hn : n < 2 ^ 32) :
    ∃ (es : List (Block × Outcome Err Unit)) (bc : Blockchain PoWEngine MemoryStore)
      (prev : Header), History (Succeeded .sample) sampleChain es bc ∧ es.length = n ∧
        bc.consensus = none ∧ bc.headers.length = n + 1 ∧ bc.headers[n]? = some prev ∧
        prev.height.toNat = n := by
  induction n with
  | zero => exact ⟨[], sampleChain, sampleGenesis, .start, rfl, rfl, rfl, rfl, rfl⟩
  | succ n ih =>
    obtain ⟨es, bc, prev, hrun, hes, hengine, hlen, hprev, hheight⟩ := ih (by omega)
    obtain ⟨bc', hadd, hheaders, hengine'⟩ :=
      addBlock_sampleBlock hn hengine hlen hprev hheight (sampleAddress 1)
    refine ⟨es ++ [(_, .ok ())], bc', sampleHeader prev [] (sampleAddress 1),
      hrun.call ⟨rfl, 0, hadd⟩, ?_, hengine', ?_, ?_, ?_⟩
    · rw [List.length_append, hes, List.length_singleton]
    · rw [hheaders, List.length_append, hlen, List.length_singleton]
    · rw [hheaders, ← hlen, List.getElem?_concat_length]
    · show (prev.height + 1).toNat = n + 1
      rw [UInt32.toNat_add, hheight]
      exact Nat.mod_eq_of_lt hn

/-- Behind the greatest height every height is taken. -/
theorem Blockchain.getBlock_of_full {bc : Blockchain PoWEngine MemoryStore}
    {es : List (Block × Outcome Err Unit)} (hrun : History (Succeeded .sample) sampleChain es bc)
    (hfull : bc.headers.length = 2 ^ 32) (i : UInt32) : ∃ b, bc.getBlock .sample i = .ok b := by
  obtain ⟨hopened, hfits⟩ := Opened.of_newBlockchain holds_empty (by norm_num) rfl rfl
    newBlockchain_sampleChain
  obtain ⟨hold, -⟩ := holds_of_run hrun hopened.holds hopened.nonempty hfits.le
  have hi : i.toNat < bc.headers.length := by
    rw [hfull]
    exact i.toNat_lt
  obtain ⟨b, hget, -⟩ := hold.get i.toNat bc.headers[i.toNat] (List.getElem?_eq_getElem hi)
  rw [UInt32.ofNat_toNat] at hget
  exact ⟨b, hget⟩

/-- **The answer at the greatest height never comes.** The chain of `A` has `2 ^ 32` headers, every
one of them added by a successful call, and `B` has the genesis block. Whichever way `B` asks, and
however many steps `A` is given, its loop is still running. -/
theorem Server.processGetBlocks_runs_forever :
    ∃ (A : Server PoWEngine MemoryStore) (es : List (Block × Outcome Err Unit)),
      Server.Behind .sample Blockchain.sampleChain A
        (Server.sampleNode "B" Blockchain.sampleChain) es [] ∧
      A.chain.height.toNat = 2 ^ 32 - 1 ∧
      ∀ (ask : Server.Ask) (C : Codecs) (fuel : ℕ),
        (Server.processGetBlocks .sample C fuel "B"
          (ask.request A (Server.sampleNode "B" Blockchain.sampleChain)) A).1 = .outOfFuel := by
  obtain ⟨es, bc, prev, hrun, hes, -, hlen, -, -⟩ :=
    Blockchain.exists_run (2 ^ 32 - 1) (by norm_num)
  have hfull : bc.headers.length = 2 ^ 32 := by omega
  have hmax : bc.height.toNat = 2 ^ 32 - 1 :=
    (Blockchain.toNat_heightLocked (by omega) hfull.le).trans (by omega)
  have hbehind : es.length > 0 := by
    rw [hes]
    norm_num
  refine ⟨Server.sampleNode "A" bc, es, ⟨rfl, hrun, .start, rfl, hbehind⟩, hmax, ?_⟩
  intro ask C fuel
  unfold Server.processGetBlocks
  rw [Act.get_bind_apply, ask.lastRequested_request]
  have hloop := Server.collectBlocks_full hmax (Blockchain.getBlock_of_full hrun hfull) fuel
    (ask.request (Server.sampleNode "A" bc) (Server.sampleNode "B" Blockchain.sampleChain)).first []
  rw [Server.sampleNode_chain, hloop, Act.bind_apply_outOfFuel (Act.lift_apply _ _)]

end Blockz
