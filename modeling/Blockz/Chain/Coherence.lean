import Blockz.Chain.Step
import Blockz.Framework.History

/-!
# The chain and its store agree

The header slice, the two maps of the store and the accumulated difficulty are written at
different points of `AddBlock`. `Coherent` says how they fit together, and it holds after every
sequence of calls that came back, accepted or refused.

* `Valid.extends` — what the position check of a valid block amounts to: the block goes on top.
* `Coherent.appended` — an accepted block keeps the invariant.
* `coherent_of_run` — every run from `NewBlockchain` on an empty store is coherent, and a chain of
  `2 ^ 32` headers refuses every further block.
-/

namespace Blockz

open Effect

namespace Blockchain

variable {E S : Type} {P : Primitives}

/-! ### The position of a valid block -/

section Position

variable [ConsensusEngine P E]

theorem toNat_heightLocked {bc : Blockchain E S} (hpos : 0 < bc.headers.length)
    (hfits : bc.headers.length ≤ 2 ^ 32) : bc.heightLocked.toNat = bc.headers.length - 1 := by
  unfold heightLocked
  rw [UInt32.toNat_sub, UInt32.toNat_ofNat']
  have hone : (1 : UInt32).toNat = 1 := rfl
  rw [hone]
  omega

omit [ConsensusEngine P E] in
theorem height_eq_ofNat {h : Header} {n : ℕ} (hheight : h.height.toNat = n) :
    h.height = UInt32.ofNat n := by
  rw [← hheight, UInt32.ofNat_toNat]

omit [ConsensusEngine P E] in
/-- Positions below the height of a header are not its height. -/
theorem ofNat_ne_height {h : Header} {i : ℕ} (hlt : i < h.height.toNat) :
    UInt32.ofNat i ≠ h.height := by
  intro heq
  have hnat := congrArg UInt32.toNat heq
  rw [UInt32.toNat_ofNat_of_lt' (hlt.trans h.height.toNat_lt)] at hnat
  omega

/-- A valid block has the next height and points to the last header. In particular there is room
for it: with `2 ^ 32` headers every height counts as taken. -/
theorem Valid.extends {bc : Blockchain E S} {b : Block} {h : Header} {c' : Option E}
    (valid : Valid P bc b h c') (hpos : 0 < bc.headers.length)
    (hfits : bc.headers.length ≤ 2 ^ 32) :
    bc.headers.length < 2 ^ 32 ∧ h.height.toNat = bc.headers.length ∧
      ∃ prev, bc.headers[bc.headers.length - 1]? = some prev ∧
        h.prevBlockHash = BlockHasher.hash P prev := by
  obtain ⟨hnew, hnext, prev, hprev, hhash⟩ := checkPosition_eq_ok.mp valid.position
  have hlast := toNat_heightLocked hpos hfits
  have hgt : bc.headers.length - 1 < h.height.toNat := by
    have hnot : ¬ h.height ≤ bc.heightLocked := hnew
    rw [UInt32.le_iff_toNat_le, hlast] at hnot
    omega
  have hheight : h.height.toNat = (bc.headers.length - 1 + 1) % 2 ^ 32 := by
    rw [hnext, UInt32.toNat_add, hlast]
    rfl
  have hroom : bc.headers.length < 2 ^ 32 := by omega
  have hlen : h.height.toNat = bc.headers.length := by omega
  refine ⟨hroom, hlen, prev, ?_, hhash.symm⟩
  -- the header below is the one that `getHeaderLocked` reads
  have hbelow : (h.height - 1).toNat = bc.headers.length - 1 := by
    rw [UInt32.toNat_sub, hlen]
    have hone : (1 : UInt32).toNat = 1 := rfl
    rw [hone]
    omega
  unfold getHeaderLocked at hprev
  split at hprev
  · exact absurd hprev (by simp)
  · rw [hbelow] at hprev
    exact Outcome.deref_eq_ok.mp hprev

end Position

/-! ### The invariant -/

/-- No two headers of the chain have the same hash. -/
def CollisionFree (P : Primitives) (bc : Blockchain E S) : Prop :=
  Set.InjOn (BlockHasher.hash P) {h | h ∈ bc.headers}

/-- Headers, store and accumulated difficulty fit together. -/
structure Coherent (P : Primitives) (bc : Blockchain PoWEngine MemoryStore) : Prop where
  nonempty : 0 < bc.headers.length
  fits : bc.headers.length ≤ 2 ^ 32
  height : ∀ (i : ℕ) (h : Header), bc.headers[i]? = some h → h.height.toNat = i
  link : ∀ (i : ℕ) (g h : Header), bc.headers[i]? = some g → bc.headers[i + 1]? = some h →
    h.prevBlockHash = BlockHasher.hash P g
  -- one block is found both by height and by hash
  stored : ∀ (i : ℕ) (h : Header), bc.headers[i]? = some h →
    ∃ b, bc.store.get h.height = .ok b ∧ b.header = some h ∧
      (CollisionFree P bc → bc.store.getByHash (BlockHasher.hash P h) = .ok b)
  above : ∀ j : UInt32, bc.headers.length ≤ j.toNat → bc.store.get j = .err (.blockNotFound j)
  -- the genesis block does not count
  weight : bc.consensus.isSome = true →
    ∃ ws, List.Forall₂ (fun h w => PoWEngine.calculateBlockWeight P h = .ok w)
      bc.headers.tail ws ∧ bc.totalDifficulty = some ws.sum

theorem getElem?_concat_cases {α : Type*} {xs : List α} {x y : α} {i : ℕ}
    (h : (xs ++ [x])[i]? = some y) : xs[i]? = some y ∨ (i = xs.length ∧ y = x) := by
  rw [List.getElem?_append] at h
  split at h
  · exact Or.inl h
  · next hlt =>
    have hi : i - xs.length = 0 := by
      by_contra hne
      rw [List.getElem?_eq_none (by rw [List.length_singleton]; omega)] at h
      exact absurd h (by simp)
    rw [hi] at h
    exact Or.inr ⟨by omega, (Option.some.inj h).symm⟩

/-- Proof of work keeps no state, so validation changes nothing at all. -/
theorem Valid.consensus_eq {bc : Blockchain PoWEngine S} {b : Block} {h : Header}
    {c' : Option PoWEngine} (valid : Valid P bc b h c') : c' = bc.consensus := by
  cases hc : bc.consensus with
  | none => exact valid.consensus_of_none hc
  | some e =>
    obtain ⟨e', rfl, hverify⟩ := valid.consensus_of_some hc
    exact congrArg some (Prod.mk.inj hverify).2.symm

theorem validateBlockLocked_consensus (b : Block) (bc : Blockchain PoWEngine S) :
    (validateBlockLocked P b bc).2.consensus = bc.consensus := by
  have hverify : ∀ h, Act.Moves Eq (ConsensusEngine.verifyHeader P h : Act PoWEngine Err Unit) :=
    fun h e => rfl
  have hrel : Option.Rel Eq bc.consensus (validateBlockLocked P b bc).2.consensus :=
    validateBlockLocked_engine hverify b bc
  generalize (validateBlockLocked P b bc).2.consensus = c' at hrel ⊢
  generalize bc.consensus = c at hrel ⊢
  cases hrel with
  | none => rfl
  | some he => rw [he]

theorem AddStep.consensus_eq [Storage P S] {fuel : ℕ} {bc bc' : Blockchain PoWEngine S}
    {b : Block} {o : Outcome Err Unit} (hstep : AddStep P fuel bc b o bc') :
    bc'.consensus = bc.consensus := by
  cases hstep with
  | invalid refused _ =>
    have hkept := validateBlockLocked_consensus (P := P) b bc
    rwa [refused] at hkept
  | aborted valid _ _ => exact valid.consensus_eq
  | crashed valid _ _ => exact valid.consensus_eq
  | appended valid _ _ _ => exact valid.consensus_eq

/-- The accumulator after an accepted block. -/
theorem nextDifficulty_pow {bc : Blockchain PoWEngine S} {h : Header} {total : Option ℕ}
    (hengine : bc.consensus.isSome = true) (hok : bc.nextDifficulty P h = .ok total) :
    ∃ old w, bc.totalDifficulty = some old ∧ PoWEngine.calculateBlockWeight P h = .ok w ∧
      total = some (old + w) := by
  unfold nextDifficulty at hok
  obtain ⟨e, he⟩ := Option.isSome_iff_exists.mp hengine
  rw [he] at hok
  change (PoWEngine.calculateBlockWeight P h >>= fun w => _) = _ at hok
  cases hw : PoWEngine.calculateBlockWeight P h with
  | error p =>
    rw [hw] at hok
    exact absurd hok (by simp [bind, Except.bind])
  | ok w =>
    rw [hw] at hok
    cases hold : bc.totalDifficulty with
    | none =>
      rw [hold] at hok
      exact absurd hok (by simp [bind, Except.bind])
    | some old =>
      rw [hold] at hok
      exact ⟨old, w, rfl, rfl, (Except.ok.inj hok).symm⟩

/-- The chain that an accepted block leaves. -/
def extended (P : Primitives) (bc : Blockchain PoWEngine MemoryStore) (b : Block) (h : Header)
    (ws : WorldState) (total : Option ℕ) : Blockchain PoWEngine MemoryStore :=
  { bc with
    headers := bc.headers ++ [h]
    worldState := ws.addBalance h.coinbase blockReward
    totalDifficulty := total
    store := bc.store.insertBlock P b h }

/-- The store after an accepted block: the old blocks are still found, and so is the new one. -/
theorem Coherent.stored_extended {bc : Blockchain PoWEngine MemoryStore} {b : Block} {h : Header}
    {ws : WorldState} {total : Option ℕ} (hbc : Coherent P bc) (hheader : b.header = some h)
    (hheight : h.height.toNat = bc.headers.length)
    (hhash : b.hash P h = BlockHasher.hash P h) :
    ∀ (i : ℕ) (x : Header), (bc.extended P b h ws total).headers[i]? = some x →
      ∃ b', (bc.extended P b h ws total).store.get x.height = .ok b' ∧ b'.header = some x ∧
        (CollisionFree P (bc.extended P b h ws total) →
          (bc.extended P b h ws total).store.getByHash (BlockHasher.hash P x) = .ok b') := by
  intro i x hx
  rcases getElem?_concat_cases hx with hold | ⟨rfl, rfl⟩
  · obtain ⟨b', hget, hhdr, hby⟩ := hbc.stored i x hold
    have hlt : i < bc.headers.length := (List.getElem?_eq_some_iff.mp hold).1
    have hne : x.height ≠ h.height := by
      intro heq
      have hi := hbc.height i x hold
      rw [heq, hheight] at hi
      omega
    refine ⟨b', ?_, hhdr, fun hfree => ?_⟩
    · have hkept := LawfulStorage.get_put_of_ne (P := P) bc.store hheader hne
      rw [MemoryStore.put_apply hheader] at hkept
      exact hkept.trans hget
    · -- another header has another hash, so its entry is not overwritten
      have hmem : x ∈ bc.headers := List.mem_of_getElem? hold
      have hother : BlockHasher.hash P x ≠ b.hash P h := by
        rw [hhash]
        intro heq
        have hxh := hfree (List.mem_append_left _ hmem)
          (List.mem_append_right _ (List.mem_singleton_self h)) heq
        exact hne (by rw [hxh])
      have hfree' : CollisionFree P bc :=
        Set.InjOn.mono (fun y hy => List.mem_append_left _ hy) hfree
      have hfound := MemoryStore.find_eq_ok.mp (hby hfree')
      refine MemoryStore.find_eq_ok.mpr ?_
      exact (Finmap.lookup_insert_of_ne _ hother).trans hfound
  · refine ⟨MemoryStore.cached P b x, ?_, hheader, fun _ => ?_⟩
    · exact MemoryStore.find_eq_ok.mpr (Finmap.lookup_insert _)
    · rw [← hhash]
      exact MemoryStore.find_eq_ok.mpr (Finmap.lookup_insert _)

/-- The links after an accepted block. -/
theorem Coherent.link_extended {bc : Blockchain PoWEngine MemoryStore} {h prev : Header}
    (hbc : Coherent P bc) (hprev : bc.headers[bc.headers.length - 1]? = some prev)
    (hlink : h.prevBlockHash = BlockHasher.hash P prev) :
    ∀ (i : ℕ) (g x : Header), (bc.headers ++ [h])[i]? = some g →
      (bc.headers ++ [h])[i + 1]? = some x → x.prevBlockHash = BlockHasher.hash P g := by
  intro i g x hg hx
  rcases getElem?_concat_cases hx with hold | ⟨hi, rfl⟩
  · -- both headers were there before
    have hlt : i + 1 < bc.headers.length := (List.getElem?_eq_some_iff.mp hold).1
    rcases getElem?_concat_cases hg with hg | ⟨hi, -⟩
    · exact hbc.link i g x hg hold
    · omega
  · -- the new header points to the last one
    rcases getElem?_concat_cases hg with hg | ⟨hi', -⟩
    · have hlast : i = bc.headers.length - 1 := by omega
      rw [hlast, hprev] at hg
      rw [← Option.some.inj hg, hlink]
    · omega

/-- The weights after an accepted block. -/
theorem Coherent.weight_extended {bc : Blockchain PoWEngine MemoryStore} {b : Block} {h : Header}
    {ws : WorldState} {total : Option ℕ} (hbc : Coherent P bc)
    (hweight : (bc.withBlock P b h bc.consensus ws).nextDifficulty P h = .ok total)
    (hengine : bc.consensus.isSome = true) :
    ∃ weights, List.Forall₂ (fun h w => PoWEngine.calculateBlockWeight P h = .ok w)
      (bc.headers ++ [h]).tail weights ∧ total = some weights.sum := by
  obtain ⟨weights, hall, hsum⟩ := hbc.weight hengine
  -- this engine cannot slash, so it is the one that was there
  have hbefore : (bc.withBlock P b h bc.consensus ws).consensus.isSome = true := hengine
  obtain ⟨old, w, hold, hw, rfl⟩ := nextDifficulty_pow hbefore hweight
  obtain rfl : weights.sum = old := Option.some.inj (hsum.symm.trans hold)
  refine ⟨weights ++ [w], ?_, ?_⟩
  · rw [List.tail_append_of_ne_nil (List.ne_nil_of_length_pos hbc.nonempty)]
    exact List.rel_append hall (.cons hw .nil)
  · rw [List.sum_append, List.sum_singleton]

/-- **An accepted block keeps the chain coherent.** -/
theorem Coherent.appended {bc : Blockchain PoWEngine MemoryStore} {b : Block} {h : Header}
    {c' : Option PoWEngine} {ws : WorldState} {total : Option ℕ} (hbc : Coherent P bc)
    (valid : Valid P bc b h c') (hcache : b.CacheCorrect P)
    (hweight : (bc.withBlock P b h bc.consensus ws).nextDifficulty P h = .ok total) :
    Coherent P (bc.extended P b h ws total) := by
  obtain ⟨hroom, hheight, prev, hprev, hlink⟩ := valid.extends hbc.nonempty hbc.fits
  have hhash : b.hash P h = BlockHasher.hash P h := hcache.hash_eq valid.header
  refine ⟨?_, ?_, ?_, ?_, ?_, ?_, ?_⟩
  · change 0 < (bc.headers ++ [h]).length
    rw [List.length_append, List.length_singleton]
    omega
  · change (bc.headers ++ [h]).length ≤ 2 ^ 32
    rw [List.length_append, List.length_singleton]
    omega
  · intro i x hx
    rcases getElem?_concat_cases hx with hold | ⟨rfl, rfl⟩
    · exact hbc.height i x hold
    · exact hheight
  · exact hbc.link_extended hprev hlink
  · exact hbc.stored_extended valid.header hheight hhash
  · intro j hj
    change (bc.headers ++ [h]).length ≤ j.toNat at hj
    rw [List.length_append, List.length_singleton] at hj
    have hne : j ≠ h.height := by
      rintro rfl
      omega
    have hkept := LawfulStorage.get_put_of_ne (P := P) bc.store valid.header hne
    rw [MemoryStore.put_apply valid.header] at hkept
    exact hkept.trans (hbc.above j (by omega))
  · exact hbc.weight_extended hweight

/-! ### Runs -/

/-- One call of `AddBlock` that came back, on a block whose cached hash is unset or correct. A call
that panics ends the process: nothing in the node recovers from it. -/
def Added (P : Primitives) (bc : Blockchain PoWEngine MemoryStore) (b : Block)
    (o : Outcome Err Unit) (bc' : Blockchain PoWEngine MemoryStore) : Prop :=
  b.CacheCorrect P ∧ o.Returns ∧ ∃ fuel, addBlock P fuel b bc = (o, bc')

theorem Coherent.added {bc bc' : Blockchain PoWEngine MemoryStore} {b : Block}
    {o : Outcome Err Unit} (hbc : Coherent P bc) (hadd : Added P bc b o bc') :
    Coherent P bc' := by
  obtain ⟨hcache, hreturns, fuel, hcall⟩ := hadd
  have hstep := AddStep.of_call hcall
  -- the engine has no state to change
  have hengine := hstep.consensus_eq
  cases hstep with
  | invalid _ _ =>
    obtain rfl := hengine
    exact hbc
  | aborted _ _ _ =>
    obtain rfl := hengine
    exact ⟨hbc.nonempty, hbc.fits, hbc.height, hbc.link, hbc.stored, hbc.above, hbc.weight⟩
  | crashed _ _ _ => exact absurd hreturns (Outcome.not_returns_panic _)
  | appended valid _ weight put =>
    obtain rfl := valid.consensus_eq
    rw [MemoryStore.put_apply valid.header] at put
    obtain ⟨-, rfl⟩ := Prod.mk.inj put
    exact hbc.appended valid hcache weight

/-- `NewBlockchain` on an empty store. -/
theorem newBlockchain_empty [ConsensusEngine P E] {genesis : Block} {g : Header}
    (hg : genesis.header = some g) (fuel : ℕ) :
    (newBlockchain P fuel genesis MemoryStore.new : Outcome Err (Blockchain E MemoryStore)) =
      .ok { store := MemoryStore.new.insertBlock P genesis g
            headers := [g]
            consensus := none
            worldState := WorldState.new
            totalDifficulty := some 0 } := by
  have hcall : addBlockWithoutValidationLocked P genesis
      (empty MemoryStore.new WorldState.new (some 0) : Blockchain E MemoryStore) =
        (.ok (), { store := MemoryStore.new.insertBlock P genesis g
                   headers := [g]
                   consensus := none
                   worldState := WorldState.new
                   totalDifficulty := some 0 }) := by
    unfold addBlockWithoutValidationLocked
    rw [hg, Outcome.deref_some, Act.bind_apply_ok (Act.lift_apply _ _), Act.modify_bind_apply,
      Act.bind_apply_ok (show addWeight P g _ = (.ok (), _) from rfl), Act.on_apply,
      MemoryStore.put_apply hg]
    rfl
  change (do
    (addBlockWithoutValidationLocked P genesis
      (empty MemoryStore.new WorldState.new (some 0) : Blockchain E MemoryStore)).1
    pure _) = _
  rw [hcall]
  rfl

theorem Coherent.genesis {genesis : Block} {g : Header} (hg : genesis.header = some g)
    (hzero : g.height = 0) (hcache : genesis.CacheCorrect P) (c : Option PoWEngine) :
    Coherent P
      { store := MemoryStore.new.insertBlock P genesis g
        headers := [g]
        consensus := c
        worldState := WorldState.new
        totalDifficulty := some 0 } := by
  have hhash : genesis.hash P g = BlockHasher.hash P g := hcache.hash_eq hg
  have honly : ∀ (i : ℕ) (h : Header), [g][i]? = some h → i = 0 ∧ h = g := by
    intro i h hi
    rcases @getElem?_concat_cases Header [] g h i hi with hnil | hlast
    · exact absurd hnil (by simp)
    · exact hlast
  refine ⟨Nat.one_pos, by norm_num, ?_, ?_, ?_, ?_, fun _ => ⟨[], .nil, rfl⟩⟩
  · intro i h hi
    obtain ⟨rfl, rfl⟩ := honly i h hi
    rw [hzero]
    rfl
  · intro i _ h _ hi
    exact absurd (honly (i + 1) h hi).1 (Nat.succ_ne_zero i)
  · intro i h hi
    obtain ⟨-, rfl⟩ := honly i h hi
    refine ⟨MemoryStore.cached P genesis h, ?_, hg, fun _ => ?_⟩
    · exact MemoryStore.find_eq_ok.mpr (Finmap.lookup_insert _)
    · rw [← hhash]
      exact MemoryStore.find_eq_ok.mpr (Finmap.lookup_insert _)
  · intro j hj
    have hne : j ≠ g.height := by
      rintro rfl
      rw [hzero] at hj
      change 1 ≤ 0 at hj
      omega
    have hkept := LawfulStorage.get_put_of_ne (P := P) MemoryStore.new hg hne
    rw [MemoryStore.put_apply hg] at hkept
    exact hkept

/-- A block at a height that the chain has is refused, and nothing changes. -/
theorem addBlock_of_taken [ConsensusEngine P E] [Storage P S] {bc : Blockchain E S} (fuel : ℕ)
    {b : Block} {h : Header} (hh : b.header = some h) (htaken : bc.hasBlockLocked h.height) :
    addBlock P fuel b bc = (.err (.chainAlreadyContains h.height (b.hash P h)), bc) := by
  have hcheck : bc.checkPosition P b h =
      .err (.chainAlreadyContains h.height (b.hash P h)) := by
    unfold checkPosition
    rw [Outcome.require_eq_err.mpr ⟨not_not_intro htaken, rfl⟩]
    rfl
  have hvalidate : validateBlockLocked P b bc =
      (.err (.chainAlreadyContains h.height (b.hash P h)), bc) := by
    unfold validateBlockLocked
    rw [Act.get_bind_apply, hh, Outcome.deref_some, Act.bind_apply_ok (Act.lift_apply _ _), hcheck,
      Act.bind_apply_err (Act.lift_apply _ _)]
  exact Act.bind_apply_err hvalidate _

/-- With `2 ^ 32` headers every height counts as taken. -/
theorem addBlock_of_full [ConsensusEngine P E] {bc : Blockchain E MemoryStore}
    (hfull : bc.headers.length = 2 ^ 32) (fuel : ℕ) {b : Block} {h : Header}
    (hh : b.header = some h) :
    addBlock P fuel b bc = (.err (.chainAlreadyContains h.height (b.hash P h)), bc) := by
  refine addBlock_of_taken fuel hh ?_
  have hlast : bc.heightLocked.toNat = bc.headers.length - 1 :=
    toNat_heightLocked (by omega) hfull.le
  have hlt := h.height.toNat_lt
  unfold hasBlockLocked
  rw [UInt32.le_iff_toNat_le, hlast]
  omega

/-- **Chain and store stay coherent.** From `NewBlockchain` on an empty store, with or without a
proof-of-work engine, every sequence of calls that came back leaves a coherent chain; and a chain
of `2 ^ 32` headers refuses every further block. -/
theorem coherent_of_run {genesis : Block} {g : Header} {fuel : ℕ} {c : Option PoWEngine}
    {bc₀ bc : Blockchain PoWEngine MemoryStore} {es : List (Block × Outcome Err Unit)}
    (hg : genesis.header = some g) (hzero : g.height = 0) (hcache : genesis.CacheCorrect P)
    (hnew : newBlockchain P fuel genesis MemoryStore.new = .ok bc₀)
    (hrun : History (Added P) { bc₀ with consensus := c } es bc) :
    Coherent P bc ∧ (bc.headers.length = 2 ^ 32 → ∀ fuel b h, b.header = some h →
      addBlock P fuel b bc = (.err (.chainAlreadyContains h.height (b.hash P h)), bc)) := by
  rw [newBlockchain_empty hg] at hnew
  obtain rfl := Outcome.ok.inj hnew
  refine ⟨?_, fun hfull fuel b h hh => addBlock_of_full hfull fuel hh⟩
  refine hrun.invariant (Coherent P) (Coherent.genesis hg hzero hcache c) ?_
  intro bc b o bc' hbc hadd
  exact hbc.added hadd

/-- The concrete chain with an engine installed, and a block for it. -/
def minedChain : Blockchain PoWEngine MemoryStore :=
  { sampleChain with consensus := some (PoWEngine.newPoWEngine 1) }

def minedBlock : Block := sampleBlock sampleGenesis [] (sampleAddress 1)

/-- A run of one accepted block under proof of work. -/
theorem coherent_of_run_minedBlock :
    (addBlock .sample 1 minedBlock minedChain).1 = .ok () ∧
      Coherent .sample (addBlock .sample 1 minedBlock minedChain).2 := by
  have hok : (addBlock .sample 1 minedBlock minedChain).1 = .ok () := by decide +kernel
  have hadd : Added .sample minedChain minedBlock (addBlock .sample 1 minedBlock minedChain).1
      (addBlock .sample 1 minedBlock minedChain).2 := by
    refine ⟨fun _ _ => Or.inl rfl, ?_, 1, Prod.mk.eta.symm⟩
    rw [hok]
    trivial
  have hrun : History (Added .sample) minedChain _ _ := .call .start hadd
  exact ⟨hok, (coherent_of_run rfl rfl (fun _ _ => Or.inl rfl) newBlockchain_sampleChain hrun).1⟩

end Blockchain

end Blockz
