import Blockz.Network.Agreement

/-!
# Replicated state

`Agreement` compares headers. Here the whole chains are compared: accounts and contract state, the
engine, the difficulty and the blocks. Again one process has a key, and everything between the
processes may be lost, repeated or reordered.

That headers agree is not enough for this. A block whose transactions fail half way leaves a state
behind that no other process has, so it is asked that no call of `createNewBlock` returns an error.

* `Process.Clean` — a turn in which the chain does not refuse the block of `createNewBlock`.
* `Blockchain.Trailing` — a copy of an earlier chain, which takes the next block and no other.
* `Trails` — the chain of a process is a copy of one that the producer has had.
* `replicas_agree` — this holds of every process in every run, and processes of the same height have
  the same state.
-/

namespace Blockz

open Effect

variable {P : Primitives} {E : Type} [ConsensusEngine P E] {C : Codecs}

/-! ### Copies -/

namespace Blockchain

section Position

variable {S : Type}

omit [ConsensusEngine P E] in
/-- The place that the chain has for a block is behind its last header. -/
theorem toNat_height_of_position {bc : Blockchain E S} {b : Block} {h : Header}
    (htip : bc.TipNumbered) (hposition : bc.checkPosition P b h = .ok ()) :
    h.height.toNat = bc.headers.length := by
  obtain ⟨hnew, hnext, -⟩ := checkPosition_eq_ok.mp hposition
  have hlast := toNat_heightLocked htip.pos htip.fits
  have hgt : ¬ h.height ≤ bc.heightLocked := hnew
  rw [UInt32.le_iff_toNat_le, hlast] at hgt
  have hheight : h.height.toNat = (bc.headers.length - 1 + 1) % 2 ^ 32 := by
    rw [hnext, UInt32.toNat_add, hlast]
    rfl
  have hpos := htip.pos
  have hfits := htip.fits
  omega

variable [Storage P S]

/-- Where a block stands is checked before the engine is asked, so a block for another height
changes nothing. -/
theorem Called.eq_of_misplaced {bc bc' : Blockchain E S} {b : Block} {o : Outcome Err Unit}
    (htip : bc.TipNumbered) (hcall : Called P bc b o bc')
    (hplace : ∀ h, b.header = some h → h.height.toNat ≠ bc.headers.length) : bc' = bc := by
  obtain ⟨fuel, hadd⟩ := hcall
  have hnot : ∀ {h c'}, ¬ Valid P bc b h c' := fun valid =>
    hplace _ valid.header (toNat_height_of_position htip valid.position)
  cases AddStep.of_call hadd with
  | invalid refused _ =>
    have hkept : (validateBlockLocked P b bc).2 = bc :=
      validateBlockLocked_of_misplaced fun h hheader hposition =>
        hplace h hheader (toNat_height_of_position htip hposition)
    rwa [refused] at hkept
  | aborted valid _ _ => exact absurd valid hnot
  | crashed valid _ _ => exact absurd valid hnot
  | appended valid _ _ _ => exact absurd valid hnot

/-- A call that has returned has done what any other one with the same arguments does. -/
theorem Called.eq_of_ok {bc bc₁ bc₂ : Blockchain E S} {b : Block} {o : Outcome Err Unit} {fuel : ℕ}
    (hcall : Called P bc b o bc₁) (hreturns : o.Returns)
    (hok : addBlock P fuel b bc = (.ok (), bc₂)) : bc₁ = bc₂ := by
  obtain ⟨fuel', hadd⟩ := hcall
  have hend : (addBlock P fuel' b bc).1 ≠ .outOfFuel := by
    rw [hadd]
    exact (Outcome.returns_iff.mp hreturns).2
  have hlater := addBlock_extends (P := P) (Nat.le_max_right fuel fuel') b bc hend
  rw [hadd, addBlock_ok_of_le (Nat.le_max_left fuel fuel') hok] at hlater
  exact (Prod.mk.inj hlater).2.symm

end Position

variable {bc₀ bc bd bd' bd₁ bd₂ mid : Blockchain E MemoryStore} {b : Block}
  {es es' es₁ es₂ : List (Block × Outcome Err Unit)}

omit [ConsensusEngine P E] in
theorem Mirrors.symm (hm : Mirrors bc bd) : Mirrors bd bc :=
  ⟨hm.headers.symm, hm.consensus.symm, hm.worldState.symm, hm.totalDifficulty.symm,
    fun i => (hm.blocks i).symm⟩

omit [ConsensusEngine P E] in
theorem Mirrors.trans (hm : Mirrors bc bd) (hm' : Mirrors bd bd') : Mirrors bc bd' :=
  ⟨hm'.headers.trans hm.headers, hm'.consensus.trans hm.consensus,
    hm'.worldState.trans hm.worldState, hm'.totalDifficulty.trans hm.totalDifficulty,
    fun i => (hm'.blocks i).trans (hm.blocks i)⟩

omit [ConsensusEngine P E] in
/-- The blocks of a run can be read off the chain that it ends with. -/
theorem Numbered.added_eq (h : Numbered es bc) (h' : Numbered es' bc) : added es = added es' := by
  have hlength : es.length = es'.length := Nat.succ.inj (h.length.symm.trans h'.length)
  have hlen : (added es).length = (added es').length := by
    unfold added
    rw [List.length_map, List.length_map, hlength]
  refine List.ext_getElem hlen fun i hi hi' => ?_
  have hstored := h.stored i _ (List.getElem?_eq_getElem hi)
  have hstored' := h'.stored i _ (List.getElem?_eq_getElem hi')
  exact Option.some.inj (hstored.symm.trans hstored')

/-- The calls that led to a copy of `mid`, and those that the chain has made since. -/
structure Trailing (P : Primitives) [ConsensusEngine P E] (bc₀ bc bd : Blockchain E MemoryStore)
    (es₁ es₂ : List (Block × Outcome Err Unit)) (mid : Blockchain E MemoryStore) : Prop where
  past : History (Succeeded P) bc₀ es₁ mid
  since : History (Succeeded P) mid es₂ bc
  copy : Mirrors mid bd

/-- A block of the chain that is at the height behind the copy is the next one of the calls. -/
theorem Trailing.next (hgenesis : bc₀.headers.length = 1) (hrooted : Rooted P bc)
    (h : Trailing P bc₀ bc bd es₁ es₂ mid) {i : UInt32} {h₁ : Header}
    (hb : bc.store.blockAt i = some b.exported) (hheader : b.header = some h₁)
    (hheight : h₁.height.toNat = bd.headers.length) : (added es₂)[0]? = some b.exported := by
  have hpast : mid.headers.length = es₁.length + 1 := (Numbered.of_run hgenesis h.past).length
  have hall : Numbered (es₁ ++ es₂) bc := Numbered.of_run hgenesis (h.past.append h.since)
  rw [h.copy.headers, hpast] at hheight
  -- it is stored at its own height
  obtain ⟨stored, hget, hexp⟩ := MemoryStore.blockAt_eq_some.mp hb
  obtain ⟨h₂, hstored, rfl⟩ := hrooted.reached.grounded.store i stored hget
  have hsame : stored.header = b.header := (congrArg Block.header hexp :)
  obtain rfl : h₁ = h₂ := Option.some.inj (hheader.symm.trans (hsame.symm.trans hstored))
  have hlt : es₁.length < (added (es₁ ++ es₂)).length := by
    have hcovered := hrooted.covered h₁.height stored hget
    rw [hheight, hall.length] at hcovered
    unfold added
    rw [List.length_map]
    omega
  have hfound := hall.stored es₁.length _ (List.getElem?_eq_getElem hlt)
  rw [← height_eq_ofNat hheight, hb] at hfound
  calc (added es₂)[0]? = (added (es₁ ++ es₂))[es₁.length]? := by
        unfold added
        rw [List.map_append, List.getElem?_append_right (by rw [List.length_map]),
          List.length_map, Nat.sub_self]
    _ = some (added (es₁ ++ es₂))[es₁.length] := List.getElem?_eq_getElem hlt
    _ = some b.exported := hfound.symm

/-- **A copy of an earlier chain, given a block of the chain**: it takes the block if it is the next
one, and stays as it is otherwise. -/
theorem Trailing.addBlock {o : Outcome Err Unit} (hgenesis : bc₀.headers.length = 1)
    (htip : bd.TipNumbered) (hrooted : Rooted P bc) (h : Trailing P bc₀ bc bd es₁ es₂ mid)
    {i : UInt32} (hb : bc.store.blockAt i = some b.exported) (hreturns : o.Returns)
    (hcall : Called P bd b o bd') : ∃ es₁' es₂' mid', Trailing P bc₀ bc bd' es₁' es₂' mid' := by
  by_cases hplace : ∃ h, b.header = some h ∧ h.height.toNat = bd.headers.length
  · obtain ⟨h₁, hheader, hheight⟩ := hplace
    have hnext := h.next hgenesis hrooted hb hheader hheight
    cases es₂ with
    | nil => exact nomatch hnext
    | cons call es₂ =>
      obtain ⟨b₁, o₁⟩ := call
      have hexp : b.exported = b₁.exported := (Option.some.inj hnext).symm
      obtain ⟨mid', hfirst, hrest⟩ := h.since.split_cons
      obtain ⟨rfl, fuel, hadd⟩ := hfirst
      obtain ⟨bd₁, hcopied, hm⟩ := h.copy.addBlock hadd hexp
      obtain rfl := hcall.eq_of_ok hreturns hcopied
      exact ⟨_, es₂, mid', h.past.call ⟨rfl, fuel, hadd⟩, hrest, hm⟩
  · refine ⟨es₁, es₂, mid, ?_⟩
    rwa [hcall.eq_of_misplaced htip fun h hheader heq => hplace ⟨h, hheader, heq⟩]

end Blockchain

/-! ### Blocks of a store -/

/-- The block is in the store, up to what is not exported. -/
def Marking.storedIn (store : MemoryStore) : Marking where
  block b := ∃ i, store.blockAt i = some b.exported
  transaction _ := True
  block_congr := by
    rintro b b' hexp ⟨i, hget⟩
    exact ⟨i, hget.trans (congrArg some hexp.symm)⟩
  transaction_congr _ _ := trivial

omit [ConsensusEngine P E] in
/-- A chain that has more has the block as well. -/
theorem Marking.storedIn_mono {bc bc' : Blockchain E MemoryStore} (hext : Extends P bc bc') :
    (Marking.storedIn bc.store).Implies (.storedIn bc'.store) := by
  refine ⟨fun b hb => ?_, fun _ _ => trivial⟩
  obtain ⟨i, hget⟩ := hb
  obtain ⟨stored, hstored, hexp⟩ := MemoryStore.blockAt_eq_some.mp hget
  exact ⟨i, MemoryStore.blockAt_eq_some.mpr ⟨stored, hext.blocks i stored hstored, hexp⟩⟩

/-- `AddBlock` stores what it accepts. -/
theorem Blockchain.Called.storedIn_of_ok {bc bc' : Blockchain E MemoryStore} {b : Block}
    (hcall : Called P bc b (.ok ()) bc') : (Marking.storedIn bc'.store).block b := by
  obtain ⟨fuel, hadd⟩ := hcall
  obtain ⟨h, c', ws, total, s, valid, -, -, put, rfl⟩ := addBlock_eq_ok hadd
  rw [MemoryStore.put_apply valid.header] at put
  obtain ⟨-, rfl⟩ := Prod.mk.inj put
  exact ⟨h.height, MemoryStore.blockAt_insertBlock_self _ _ _⟩

/-! ### The network -/

variable [SealingEngine P E]

/-- `createNewBlock` has not failed in the turn. -/
def Turn.Produced (t : Turn) (o : Outcome Err Unit) : Prop := ∀ tick, t = .produce tick → o = .ok ()

/-- A turn in which the chain does not refuse the block of `createNewBlock`. -/
structure Process.Clean (P : Primitives) [ConsensusEngine P E] [SealingEngine P E] (C : Codecs)
    (s : Process E MemoryStore) (t : Turn) (o : Outcome Err Unit) (s' : Process E MemoryStore) :
    Prop where
  step : Process.Step P C s t o s'
  accepted : ∀ tick b, t = .produce tick → s.producer = .signed b → o = .ok ()

theorem Process.Step.clean {s s' : Process E MemoryStore} {t : Turn} {o : Outcome Err Unit}
    (hstep : Process.Step P C s t o s') (hproduced : t.Produced o) : Process.Clean P C s t o s' :=
  ⟨hstep, fun tick _ ht _ => hproduced tick ht⟩

/-- The call of `AddBlock` in `createNewBlock` has then returned nil. -/
theorem Process.Clean.produced {s s' : Process E MemoryStore} {tick : Tick} {b : Block}
    {o : Outcome Err Unit} (h : Process.Clean P C s (.produce tick) o s')
    (hb : s.producer = .signed b) :
    Blockchain.Succeeded P s.node.chain b (.ok ()) s'.node.chain := by
  obtain ⟨hstep, hok⟩ := h
  have ho := hok tick b rfl hb
  cases hstep with
  | produce held call _ =>
    obtain ⟨p, rfl, -⟩ := Outcome.bind_eq_ok.mp ho
    rw [hb] at call
    obtain ⟨u, n₁, hadded, hend⟩ := Act.bind_eq_ok.mp call
    cases hend
    obtain ⟨hfst, rfl⟩ := Prod.mk.inj hadded
    exact ⟨rfl, _, Prod.ext hfst rfl⟩

/-- New processes on new stores, with the same engine. No other one than `v` has a key. -/
def Deployed {κ : Type} (P : Primitives) [ConsensusEngine P E] (v : κ)
    (c : κ → Process E MemoryStore) : Prop :=
  ∃ engine : Option E, ∀ k, ∃ fuel opts n, Node.newServer P fuel opts = .ok n ∧ c k = .start n ∧
    opts.storage = MemoryStore.new ∧ opts.consensus = engine ∧ (k ≠ v → opts.privateKey = none)

/-- The chain of the process is a copy of one that the producer has had, and the process holds no
other blocks than the producer's. -/
structure Trails (P : Primitives) [ConsensusEngine P E] (C : Codecs)
    (bc₀ : Blockchain E MemoryStore) (producer s : Process E MemoryStore) : Prop where
  rooted : Rooted P s.node.chain
  marked : s.Marked P C (.storedIn producer.node.chain.store)
  copied : ∃ es₁ es₂ mid,
    Blockchain.Trailing P bc₀ producer.node.chain s.node.chain es₁ es₂ mid

/-- A block at hand is one of the producer's. -/
theorem Trails.follow (hC : C.Faithful) {bc₀ : Blockchain E MemoryStore}
    {s t t' : Process E MemoryStore} {turn : Turn} {o : Outcome Err Unit}
    (hgenesis : bc₀.headers.length = 1) (hs : Rooted P s.node.chain) (ht : Trails P C bc₀ s t)
    (hkey : t.node.privateKey = none) (hstep : Process.Step P C t turn o t')
    (hreceived : ∀ moment msg, turn = .receive moment msg →
      msg.data.Marked (.storedIn s.node.chain.store)) : Trails P C bc₀ s t' := by
  have hnokey : t.node.privateKey.isSome ≠ true := by
    rw [hkey]
    exact Bool.false_ne_true
  refine ⟨(hstep.extends ht.rooted).1, ?_, ?_⟩
  · exact ht.marked.step hC hstep hreceived (fun _ _ _ => trivial) fun b _ hheld _ =>
      absurd hheld hnokey
  · rcases hstep.adds.chain with hsame | ⟨b, r, hhand, hreturns, hcall⟩
    · rw [hsame]
      exact ht.copied
    · rcases hhand with ⟨-, -, hhand⟩ | ⟨-, -, -, hheld⟩
      · obtain ⟨i, hstored⟩ := ht.marked.handler.atHand hhand
        obtain ⟨es₁, es₂, mid, htrailing⟩ := ht.copied
        exact htrailing.addBlock hgenesis ht.rooted.reached.grounded.tip hs hstored hreturns hcall
      · exact absurd hheld hnokey

/-- What the producer does to its chain. Blocks that come back to it are at heights that it has. -/
theorem Trails.chain_cases {bc₀ : Blockchain E MemoryStore} {s s' : Process E MemoryStore}
    {t : Turn} {o : Outcome Err Unit} (hs : Trails P C bc₀ s s)
    (hstep : Process.Clean P C s t o s') : s'.node.chain = s.node.chain ∨
      ∃ tick b, t = .produce tick ∧ s.producer = .signed b ∧
        Blockchain.Succeeded P s.node.chain b (.ok ()) s'.node.chain := by
  rcases hstep.step.adds.chain with hsame | ⟨b, r, hhand, hreturns, hcall⟩
  · exact Or.inl hsame
  · rcases hhand with ⟨-, -, hhand⟩ | ⟨tick, rfl, hsigned, -⟩
    · obtain ⟨i, hget⟩ := hs.marked.handler.atHand hhand
      obtain ⟨stored, hstored, hexp⟩ := MemoryStore.blockAt_eq_some.mp hget
      have hcovered := hs.rooted.covered i stored hstored
      obtain ⟨h, hheader, rfl⟩ := hs.rooted.reached.grounded.store i stored hstored
      have hsame : stored.header = b.header := (congrArg Block.header hexp :)
      refine Or.inl (hcall.eq_of_misplaced hs.rooted.reached.grounded.tip ?_)
      intro h' hheader' heq
      obtain rfl : h = h' := Option.some.inj (hheader.symm.trans (hsame.trans hheader'))
      exact absurd hcovered (by rw [heq]; exact lt_irrefl _)
    · exact Or.inr ⟨tick, b, rfl, hsigned, hstep.produced hsigned⟩

theorem Trails.succeeds {bc₀ : Blockchain E MemoryStore} {s s' : Process E MemoryStore} {t : Turn}
    {o : Outcome Err Unit} (hs : Trails P C bc₀ s s) (hstep : Process.Clean P C s t o s') :
    ∃ es, History (Blockchain.Succeeded P) s.node.chain es s'.node.chain := by
  rcases hs.chain_cases hstep with hsame | ⟨_, _, -, -, hcall⟩
  · rw [hsame]
    exact ⟨[], .start⟩
  · exact ⟨_, .call .start hcall⟩

omit [SealingEngine P E] in
/-- The producer's chain goes on. -/
theorem Trails.mono {bc₀ : Blockchain E MemoryStore} {s s' t : Process E MemoryStore}
    {es : List (Block × Outcome Err Unit)} (ht : Trails P C bc₀ s t)
    (hext : Extends P s.node.chain s'.node.chain)
    (hrun : History (Blockchain.Succeeded P) s.node.chain es s'.node.chain) :
    Trails P C bc₀ s' t := by
  obtain ⟨es₁, es₂, mid, htrailing⟩ := ht.copied
  exact ⟨ht.rooted, ht.marked.mono (Marking.storedIn_mono hext), es₁, es₂ ++ es, mid,
    htrailing.past, htrailing.since.append hrun, htrailing.copy⟩

/-- The producer takes a turn. -/
theorem Trails.lead (hC : C.Faithful) {bc₀ : Blockchain E MemoryStore}
    {s s' : Process E MemoryStore} {t : Turn} {o : Outcome Err Unit} (hs : Trails P C bc₀ s s)
    (hstep : Process.Clean P C s t o s')
    (hreceived : ∀ moment msg, t = .receive moment msg →
      msg.data.Marked (.storedIn s.node.chain.store)) : Trails P C bc₀ s' s' := by
  obtain ⟨hrooted, hext⟩ := hstep.step.extends hs.rooted
  have hK := Marking.storedIn_mono hext
  obtain ⟨es, hrun⟩ := hs.succeeds hstep
  obtain ⟨es₁, es₂, mid, htrailing⟩ := hs.copied
  refine ⟨hrooted, ?_, _, [], _, (htrailing.past.append htrailing.since).append hrun, .start,
    .refl _⟩
  exact (hs.marked.mono hK).step hC hstep.step
    (fun moment msg ht => (hreceived moment msg ht).mono hK) (fun _ _ _ => trivial)
    fun b _ _ hcall => hcall.storedIn_of_ok

omit [SealingEngine P E] in
/-- Two processes at the same height. -/
theorem Trails.mirrors {bc₀ : Blockchain E MemoryStore} {s t t' : Process E MemoryStore}
    (hgenesis : bc₀.headers.length = 1) (ht : Trails P C bc₀ s t) (ht' : Trails P C bc₀ s t')
    (hlength : t.node.chain.headers.length = t'.node.chain.headers.length) :
    Blockchain.Mirrors t.node.chain t'.node.chain := by
  obtain ⟨es₁, es₂, mid, h⟩ := ht.copied
  obtain ⟨es₁', es₂', mid', h'⟩ := ht'.copied
  -- both have made the first calls of the producer, and the same number of them
  have hall := (Blockchain.Numbered.of_run hgenesis (h.past.append h.since)).added_eq
    (Blockchain.Numbered.of_run hgenesis (h'.past.append h'.since))
  have hcount : es₁.length = es₁'.length := by
    rw [h.copy.headers, h'.copy.headers, (Blockchain.Numbered.of_run hgenesis h.past).length,
      (Blockchain.Numbered.of_run hgenesis h'.past).length] at hlength
    exact Nat.succ.inj hlength
  have hsame : Blockchain.added es₁' = Blockchain.added es₁ := by
    unfold Blockchain.added at hall ⊢
    rw [List.map_append, List.map_append] at hall
    refine (List.append_inj hall ?_).1.symm
    rw [List.length_map, List.length_map, hcount]
  have hmid : Blockchain.Mirrors mid mid' :=
    (Blockchain.Mirrors.refl bc₀).of_runs h.past h'.past hsame
  exact (h.copy.symm.trans hmid).trans h'.copy

omit [SealingEngine P E] in
/-- A process that has just been made. -/
theorem Trails.of_newServer {fuel fuel' : ℕ} {opts opts' : Node.ServerOpts E MemoryStore}
    {n n' : Node E MemoryStore} (hstore : opts.storage = MemoryStore.new)
    (hstore' : opts'.storage = MemoryStore.new) (hengine : opts'.consensus = opts.consensus)
    (hnew : Node.newServer P fuel opts = .ok n) (hnew' : Node.newServer P fuel' opts' = .ok n') :
    Trails P C n.chain (.start n) (.start n') := by
  have hchain : n'.chain = n.chain := by
    obtain ⟨g, hg, -⟩ := Node.genesisBlock_header
    obtain ⟨bc, hbc, hn⟩ := Outcome.bind_eq_ok.mp hnew
    obtain ⟨bc', hbc', hn'⟩ := Outcome.bind_eq_ok.mp hnew'
    rw [hstore, Blockchain.newBlockchain_empty hg fuel] at hbc
    rw [hstore', Blockchain.newBlockchain_empty hg fuel'] at hbc'
    obtain rfl : bc = bc' := Outcome.ok.inj (hbc.symm.trans hbc')
    obtain rfl := Outcome.ok.inj hn
    obtain rfl := Outcome.ok.inj hn'
    simp only [hengine]
  have hempty' : ∀ i, ∃ e, Storage.get P opts'.storage i = .err e := by
    intro i
    rw [hstore']
    exact ⟨.blockNotFound i, rfl⟩
  refine ⟨.of_newServer hempty' hnew', .of_newServer hnew' fun i b hget => ?_, [], [], n.chain,
    .start, .start, ?_⟩
  · rw [hchain] at hget
    exact ⟨i, MemoryStore.blockAt_eq_some.mpr ⟨b, hget, rfl⟩⟩
  · show Blockchain.Mirrors n.chain n'.chain
    rw [hchain]
    exact .refl _

/-- In every run in which no call of `createNewBlock` fails. -/
theorem trails_of_run {κ : Type} [DecidableEq κ] (hC : C.Faithful) {v : κ}
    {c₀ c : κ → Process E MemoryStore} {es : List ((κ × Turn) × Outcome Err Unit)}
    (hnew : Deployed P v c₀)
    (hrun : History (Swarm (Process.Step P C) (Arrives C)) c₀ es c)
    (hproduced : ∀ e ∈ es, e.1.2.Produced e.2) :
    (c₀ v).node.chain.headers.length = 1 ∧ ∀ k,
      Trails P C (c₀ v).node.chain (c v) (c k) ∧ (k ≠ v → (c k).node.privateKey = none) := by
  obtain ⟨engine, hnew⟩ := hnew
  obtain ⟨fuel, opts, n, hn, hv, hstore, hengine, -⟩ := hnew v
  have hempty : ∀ {opts : Node.ServerOpts E MemoryStore}, opts.storage = MemoryStore.new →
      ∀ i, ∃ e, Storage.get P opts.storage i = .err e := by
    intro opts hstore i
    rw [hstore]
    exact ⟨.blockNotFound i, rfl⟩
  have hstart : ∀ k, Trails P C (c₀ v).node.chain (c₀ v) (c₀ k) ∧
      (k ≠ v → (c₀ k).node.privateKey = none) := by
    intro k
    obtain ⟨fuel', opts', n', hn', hk, hstore', hengine', hkey⟩ := hnew k
    rw [hv, hk]
    refine ⟨.of_newServer hstore hstore' (hengine'.trans hengine.symm) hn hn', fun hne => ?_⟩
    obtain ⟨-, -, -, -, -, hheld⟩ := Node.newServer_of_empty (hempty hstore') hn'
    exact hheld.trans (hkey hne)
  have hgenesis : (c₀ v).node.chain.headers.length = 1 := by
    obtain ⟨-, hheaders, -⟩ := Node.newServer_of_empty (hempty hstore) hn
    rw [hv]
    show n.chain.headers.length = 1
    rw [hheaders]
    rfl
  refine ⟨hgenesis, ?_⟩
  refine Swarm.led (v := v)
    (R := fun k s t => Trails P C (c₀ v).node.chain s t ∧ (k ≠ v → t.node.privateKey = none))
    (Swarm.restrict hrun hproduced) hstart ?_ ?_
  · intro c t o s' hc harrives hstep
    refine ⟨⟨?_, fun hne => absurd rfl hne⟩, fun k hne => ⟨?_, (hc k).2⟩⟩
    · exact (hc v).1.lead hC (hstep.1.clean hstep.2) (harrives.marked hC fun k => (hc k).1.marked)
    · obtain ⟨es, hes⟩ := (hc v).1.succeeds (hstep.1.clean hstep.2)
      exact (hc k).1.mono (hstep.1.extends (hc v).1.rooted).2 hes
  · intro c k t o s' hne hc harrives hstep
    refine ⟨?_, fun _ => ?_⟩
    · exact (hc k).1.follow hC hgenesis (hc v).1.rooted ((hc k).2 hne) hstep.1
        (harrives.marked hC fun k => (hc k).1.marked)
    · exact hstep.1.adds.privateKey.trans ((hc k).2 hne)

/-- **The processes are replicas.** Of new processes on new stores, with the same engine, one has a
key. In every run in which no call of `createNewBlock` fails, whatever is submitted to them,
whatever is lost, repeated or reordered between them, and however their goroutines interleave: the
chain of each process is a copy of a chain that the producer has had, with its blocks, its world
state, its engine and its difficulty; and processes of the same height have copies of the same
chain. -/
theorem replicas_agree {κ : Type} [DecidableEq κ] (hC : C.Faithful) {v : κ}
    {c₀ c : κ → Process E MemoryStore} {es : List ((κ × Turn) × Outcome Err Unit)}
    (hnew : Deployed P v c₀)
    (hrun : History (Swarm (Process.Step P C) (Arrives C)) c₀ es c)
    (hproduced : ∀ e ∈ es, e.1.2.Produced e.2) :
    (∀ k, ∃ es₁ es₂ mid, History (Blockchain.Succeeded P) (c₀ v).node.chain es₁ mid ∧
      History (Blockchain.Succeeded P) mid es₂ (c v).node.chain ∧
      Blockchain.Mirrors mid (c k).node.chain) ∧
    ∀ j k, (c j).node.chain.headers.length = (c k).node.chain.headers.length →
      Blockchain.Mirrors (c j).node.chain (c k).node.chain := by
  obtain ⟨hgenesis, hall⟩ := trails_of_run hC hnew hrun hproduced
  refine ⟨fun k => ?_, fun j k hlength => (hall j).1.mirrors hgenesis (hall k).1 hlength⟩
  obtain ⟨es₁, es₂, mid, h⟩ := (hall k).1.copied
  exact ⟨es₁, es₂, mid, h.past, h.since, h.copy⟩

theorem deployed_pairStart : Deployed .sample true pairStart := by
  refine ⟨none, fun k => ⟨1,
    { Node.sampleOpts with privateKey := if k then some sampleKey else none }, _, rfl, rfl, rfl,
    rfl, fun hne => ?_⟩⟩
  rw [Bool.eq_false_iff.mpr hne]
  rfl

/-- The theorem for a validator and a node without a key, after the first block. -/
theorem replicas_agree_pair : ∃ (C : Codecs) (es : List ((Bool × Turn) × Outcome Err Unit))
    (c : Bool → Process PoWEngine MemoryStore),
      History (Swarm (Process.Step .sample C) (Arrives C)) pairStart es c ∧
      (c true).node.chain.headers.length = 2 ∧
      Blockchain.Mirrors (c true).node.chain (c false).node.chain := by
  obtain ⟨C, es, c, hC, hrun, hok, hlength, hlength'⟩ := exists_pairRun
  have hproduced : ∀ e ∈ es, e.1.2.Produced e.2 := fun e he _ _ => hok e he
  exact ⟨C, es, c, hrun, hlength, (replicas_agree hC deployed_pairStart hrun hproduced).2 true false
    (hlength.trans hlength'.symm)⟩

end Blockz
