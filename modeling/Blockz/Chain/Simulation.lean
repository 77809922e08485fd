import Blockz.Chain.Engines
import Blockz.Chain.Fuel

/-!
# A chain and its copy

A node that adds the blocks of another node gets them over the network, and gob carries the exported
fields only. The two chains then differ in their stores: the blocks of the one may have cached
hashes and times of arrival that the blocks of the other have not.

* `MemoryStore.blockAt` — what is stored at a height, without the unexported fields.
* `Alike` — what decides about a block is the same on both chains. `Alike.addBlock`: a block that
  the one accepts is accepted by the other. This is the step of the simulation.
* `Mirrors` — the two chains have the same headers, engine, world state and difficulty, and store
  the same blocks in this sense (`Mirrors.addBlock`: they go on doing so).
* `Abreast` — they are alike, and the one has the blocks of the other (`Abreast.addBlock`).
* `Mirrors.of_runs`, `Mirrors.catch_up` — the same for whole runs: two runs over the same blocks end
  in chains that mirror each other, and a chain that is behind gets there by adding the blocks it
  lacks.
* `Numbered.of_run` — where the blocks of a run are stored.
* `agreesBelow_of_run` — what is there before a run is there after it.
-/

namespace Blockz

open Effect

variable {P : Primitives}

/-- Executing transactions is a matter of their exported fields. -/
theorem executeTransactions_exported (fuel : ℕ) (txx : List Transaction) :
    executeTransactions P fuel (txx.map Transaction.exported) =
      executeTransactions P fuel txx := by
  induction txx with
  | nil => rfl
  | cons tx txx ih =>
    have htx : executeTransaction P fuel tx.exported = executeTransaction P fuel tx := rfl
    unfold executeTransactions at ih ⊢
    rw [List.map_cons, Act.forEach_cons, Act.forEach_cons, htx, ih]

/-- Executions that run through agree if the exported fields of the transactions do. -/
theorem executeTransactions_unique {fuel fuel' : ℕ} {txx txx' : List Transaction}
    {ws ws₁ ws₂ : WorldState}
    (hsame : txx.map Transaction.exported = txx'.map Transaction.exported)
    (h₁ : executeTransactions P fuel txx ws = (.ok (), ws₁))
    (h₂ : executeTransactions P fuel' txx' ws = (.ok (), ws₂)) : ws₁ = ws₂ := by
  have hmax₁ := executeTransactions_ok_of_le (Nat.le_max_left fuel fuel') h₁
  have hmax₂ := executeTransactions_ok_of_le (Nat.le_max_right fuel fuel') h₂
  rw [← executeTransactions_exported, hsame, executeTransactions_exported] at hmax₁
  exact (Prod.mk.inj (hmax₁.symm.trans hmax₂)).2

/-! ### What is stored at a height -/

namespace MemoryStore

/-- The exported fields of the block at a height. -/
def blockAt (s : MemoryStore) (height : UInt32) : Option Block :=
  (s.blocks.lookup height).map Block.exported

theorem blockAt_eq_some {s : MemoryStore} {height : UInt32} {b : Block} :
    s.blockAt height = some b ↔ ∃ stored, s.get height = .ok stored ∧ stored.exported = b := by
  unfold blockAt MemoryStore.get
  rw [Option.map_eq_some_iff]
  exact exists_congr fun stored => and_congr_left fun _ => find_eq_ok.symm

/-- `Put` fills caches and changes nothing that is exported. -/
theorem cached_exported (b : Block) (h : Header) : (cached P b h).exported = b.exported := by
  unfold Block.exported cached
  rw [List.map_map]
  rfl

@[simp] theorem blockAt_insertBlock_self (s : MemoryStore) (b : Block) (h : Header) :
    (s.insertBlock P b h).blockAt h.height = some b.exported := by
  show ((s.blocks.insert h.height (cached P b h)).lookup h.height).map Block.exported = _
  rw [Finmap.lookup_insert, Option.map_some, cached_exported]

theorem blockAt_insertBlock_of_ne (s : MemoryStore) (b : Block) {h : Header} {height : UInt32}
    (hne : height ≠ h.height) : (s.insertBlock P b h).blockAt height = s.blockAt height := by
  show ((s.blocks.insert h.height (cached P b h)).lookup height).map Block.exported = _
  rw [Finmap.lookup_insert_of_ne _ hne]
  rfl

end MemoryStore

namespace Blockchain

variable {E : Type} [ConsensusEngine P E] {bc bc' bd bd' : Blockchain E MemoryStore} {b b' : Block}
  {fuel : ℕ} {es es' : List (Block × Outcome Err Unit)}

/-! ### The simulation -/

/-- What decides about a block is the same on both: headers, engine, world state, and whether there
is an accumulator. -/
structure Alike (bc bd : Blockchain E MemoryStore) : Prop where
  headers : bd.headers = bc.headers
  consensus : bd.consensus = bc.consensus
  worldState : bd.worldState = bc.worldState
  isSome_totalDifficulty : bd.totalDifficulty.isSome = bc.totalDifficulty.isSome

/-- `bd` is a copy of `bc`, up to what is not exported. -/
structure Mirrors (bc bd : Blockchain E MemoryStore) : Prop where
  headers : bd.headers = bc.headers
  consensus : bd.consensus = bc.consensus
  worldState : bd.worldState = bc.worldState
  totalDifficulty : bd.totalDifficulty = bc.totalDifficulty
  blocks : ∀ height, bd.store.blockAt height = bc.store.blockAt height

omit [ConsensusEngine P E] in
theorem Mirrors.refl (bc : Blockchain E MemoryStore) : Mirrors bc bc :=
  ⟨rfl, rfl, rfl, rfl, fun _ => rfl⟩

omit [ConsensusEngine P E] in
theorem Mirrors.alike (hm : Mirrors bc bd) : Alike bc bd :=
  ⟨hm.headers, hm.consensus, hm.worldState, congrArg Option.isSome hm.totalDifficulty⟩

/-- Validation looks at the headers and the engine, and at nothing that is not exported. -/
theorem Valid.alike {h : Header} {c' : Option E} (valid : Valid P bc b h c') (ha : Alike bc bd)
    (hexp : b'.exported = b.exported) : Valid P bd b' h c' := by
  refine ⟨?_, ?_, ?_, (Block.verify_congr hexp).mpr valid.verify⟩
  · have hheader : b'.header = b.header := (congrArg Block.header hexp :)
    rw [hheader, valid.header]
  · have hposition := checkPosition_eq_ok.mp valid.position
    unfold hasBlockLocked heightLocked getHeaderLocked at hposition
    rw [← ha.headers] at hposition
    exact checkPosition_eq_ok.mpr hposition
  · unfold verifyConsensus
    rw [ha.consensus]
    cases hc : bc.consensus with
    | none =>
      obtain rfl := valid.consensus_of_none hc
      show (_, _) = (_, _)
      rw [← hc, ← ha.consensus]
    | some e =>
      obtain ⟨e', rfl, hverify⟩ := valid.consensus_of_some hc
      show (_, _) = (_, _)
      rw [hverify]

/-- **A block that one chain accepts is accepted by any chain that is like it**, and they stay
alike. Each of them stores what it was given. -/
theorem Alike.addBlock (ha : Alike bc bd) (hok : addBlock P fuel b bc = (.ok (), bc'))
    (hexp : b'.exported = b.exported) :
    ∃ h c' bd', Valid P bc b h c' ∧ Blockchain.addBlock P fuel b' bd = (.ok (), bd') ∧
      Alike bc' bd' ∧ bc'.store = bc.store.insertBlock P b h ∧
      bd'.store = bd.store.insertBlock P b' h ∧
      (bd.totalDifficulty = bc.totalDifficulty → bd'.totalDifficulty = bc'.totalDifficulty) := by
  obtain ⟨h, c', ws, total, s, valid, executed, weight, put, rfl⟩ := addBlock_eq_ok hok
  rw [MemoryStore.put_apply valid.header] at put
  obtain ⟨-, rfl⟩ := Prod.mk.inj put
  have hvalid := valid.alike ha hexp
  have hexecuted : executeTransactions P fuel b'.transactions bd.worldState = (.ok (), ws) := by
    have htxx : b'.transactions.map Transaction.exported =
        b.transactions.map Transaction.exported := (congrArg Block.transactions hexp :)
    rw [ha.worldState, ← executeTransactions_exported, htxx, executeTransactions_exported, executed]
  have hevidence : b'.evidence = b.evidence := (congrArg Block.evidence hexp :)
  have hengine : (bd.withBlock P b' h c' ws).consensus = (bc.withBlock P b h c' ws).consensus := by
    unfold withBlock
    rw [hevidence]
  obtain ⟨total', hweight⟩ :
      ∃ total', (bd.withBlock P b' h c' ws).nextDifficulty P h = .ok total' :=
    exists_nextDifficulty hengine ha.isSome_totalDifficulty weight
  refine ⟨h, c', _, valid,
    addBlock_of_stages hvalid hexecuted hweight (MemoryStore.put_apply hvalid.header _), ?_, rfl,
    rfl, fun htotal => ?_⟩
  · refine ⟨?_, hengine, rfl, ?_⟩
    · show bd.headers ++ [h] = bc.headers ++ [h]
      rw [ha.headers]
    · show total'.isSome = total.isSome
      rw [isSome_nextDifficulty weight, isSome_nextDifficulty hweight]
      exact ha.isSome_totalDifficulty
  · show total' = total
    have hsame : (bd.withBlock P b' h c' ws).nextDifficulty P h =
        (bc.withBlock P b h c' ws).nextDifficulty P h := by
      unfold nextDifficulty
      rw [hengine]
      unfold withBlock
      rw [htotal]
    exact Except.ok.inj (hweight.symm.trans (hsame.trans weight))

/-- **A block that one chain accepts is accepted by its copy**, and they stay copies. -/
theorem Mirrors.addBlock (hm : Mirrors bc bd) (hok : addBlock P fuel b bc = (.ok (), bc'))
    (hexp : b'.exported = b.exported) :
    ∃ bd', Blockchain.addBlock P fuel b' bd = (.ok (), bd') ∧ Mirrors bc' bd' := by
  obtain ⟨h, -, bd', -, hadd, ha, hstore, hstore', htotal⟩ := hm.alike.addBlock hok hexp
  refine ⟨bd', hadd, ha.headers, ha.consensus, ha.worldState, htotal hm.totalDifficulty,
    fun height => ?_⟩
  rw [hstore, hstore']
  by_cases heq : height = h.height
  · subst heq
    rw [MemoryStore.blockAt_insertBlock_self, MemoryStore.blockAt_insertBlock_self, hexp]
  · rw [MemoryStore.blockAt_insertBlock_of_ne _ _ heq,
      MemoryStore.blockAt_insertBlock_of_ne _ _ heq, hm.blocks]

/-- `bd` has the first `k` blocks of `bc`. -/
def AgreesBelow (k : ℕ) (bc bd : Blockchain E MemoryStore) : Prop :=
  ∀ i < k, bd.headers[i]? = bc.headers[i]? ∧
    bd.store.blockAt (UInt32.ofNat i) = bc.store.blockAt (UInt32.ofNat i)

/-- `bd` decides like `bc` and has its blocks. Whether it stores anything else is left open. -/
structure Abreast (bc bd : Blockchain E MemoryStore) : Prop extends Alike bc bd where
  pos : 0 < bc.headers.length
  fits : bc.headers.length ≤ 2 ^ 32
  agrees : AgreesBelow bc.headers.length bc bd

/-- **They stay abreast.** -/
theorem Abreast.addBlock (ha : Abreast bc bd) (hok : addBlock P fuel b bc = (.ok (), bc'))
    (hexp : b'.exported = b.exported) :
    ∃ bd', Blockchain.addBlock P fuel b' bd = (.ok (), bd') ∧ Abreast bc' bd' := by
  obtain ⟨h, c', bd', valid, hadd, halike, hstore, hstore', -⟩ := ha.toAlike.addBlock hok hexp
  obtain ⟨hroom, hheight, -⟩ := valid.extends ha.pos ha.fits
  have hheaders : bc'.headers = bc.headers ++ [h] := by
    obtain ⟨h', c'', ws, valid', hheaders, -⟩ := Succeeded.appended ⟨rfl, fuel, hok⟩
    obtain rfl := Option.some.inj (valid.header.symm.trans valid'.header)
    exact hheaders
  have hlength : bc'.headers.length = bc.headers.length + 1 := by
    rw [hheaders, List.length_append, List.length_singleton]
  refine ⟨bd', hadd, halike, by omega, by omega, fun i hi => ⟨by rw [halike.headers], ?_⟩⟩
  rw [hstore, hstore']
  rcases Nat.lt_or_eq_of_le (Nat.le_of_lt_succ (hlength ▸ hi)) with hold | rfl
  · have hne : UInt32.ofNat i ≠ h.height := ofNat_ne_height (by omega)
    rw [MemoryStore.blockAt_insertBlock_of_ne _ _ hne,
      MemoryStore.blockAt_insertBlock_of_ne _ _ hne]
    exact (ha.agrees i hold).2
  · rw [← height_eq_ofNat hheight, MemoryStore.blockAt_insertBlock_self,
      MemoryStore.blockAt_insertBlock_self, hexp]

/-! ### Runs -/

/-- The blocks of a run, as far as they are exported. -/
def added (es : List (Block × Outcome Err Unit)) : List Block := es.map fun e => e.1.exported

theorem added_concat (es : List (Block × Outcome Err Unit)) (e : Block × Outcome Err Unit) :
    added (es ++ [e]) = added es ++ [e.1.exported] := List.map_append

/-- Two runs over the same blocks end in copies. -/
theorem Mirrors.of_runs (hm : Mirrors bc bd) (hrun : History (Succeeded P) bc es bc')
    (hcopy : History (Succeeded P) bd es' bd') (hsame : added es' = added es) :
    Mirrors bc' bd' := by
  induction es using List.reverseRecOn generalizing es' bc' bd' with
  | nil =>
    obtain rfl : es' = [] := List.map_eq_nil_iff.mp hsame
    rwa [hrun.eq_of_nil, hcopy.eq_of_nil]
  | append_singleton es e ih =>
    -- both runs end with a call, on the same block
    obtain ⟨es', e', rfl⟩ : ∃ es₀ e₀, es' = es₀ ++ [e₀] := by
      rcases List.eq_nil_or_concat' es' with rfl | hlast
      · rw [added_concat] at hsame
        exact absurd hsame.symm (by simp [added])
      · exact hlast
    rw [added_concat, added_concat] at hsame
    obtain ⟨hpast, hexp⟩ := List.append_singleton_inj.mp hsame
    obtain ⟨bc₁, hrun₁, hstep⟩ := hrun.last_call
    obtain ⟨bd₁, hcopy₁, hstep'⟩ := hcopy.last_call
    obtain ⟨ho, fuel, hcall⟩ := hstep
    rw [ho] at hcall
    -- the call that the copy can make is the call that it has made
    obtain ⟨bd₂, hadd, hm₂⟩ := (ih hrun₁ hcopy₁ hpast).addBlock hcall hexp
    obtain rfl : bd₂ = bd' := Succeeded.unique ⟨rfl, fuel, hadd⟩ hstep'
    exact hm₂

/-- A run over the first blocks of another one ends in a copy of what the other one had then. -/
theorem Mirrors.of_firstBlocks {mid : Blockchain E MemoryStore}
    (hfirst : History (Succeeded P) bc (es.take es'.length) mid)
    (hcopy : History (Succeeded P) bc es' bd) (hsame : added es' = (added es).take es'.length) :
    Mirrors mid bd := by
  refine (Mirrors.refl bc).of_runs hfirst hcopy ?_
  rw [hsame]
  exact List.map_take.symm

/-- A chain that keeps step with another one block by block keeps step over a run, in one loop. The
bound on the rounds of the machine has to do for all of them. -/
theorem catch_up_of_addBlock {R : Blockchain E MemoryStore → Blockchain E MemoryStore → Prop}
    (hstep : ∀ {bc bc' bd : Blockchain E MemoryStore} {fuel : ℕ} {b b' : Block}, R bc bd →
      addBlock P fuel b bc = (.ok (), bc') → b'.exported = b.exported →
      ∃ bd', addBlock P fuel b' bd = (.ok (), bd') ∧ R bc' bd')
    (hR : R bc bd) (hrun : History (Succeeded P) bc es bc') :
    ∃ fuel₀, ∀ fuel ≥ fuel₀, ∃ bd',
      Act.forEach (Blockchain.addBlock P fuel) (added es) bd = (.ok (), bd') ∧ R bc' bd' := by
  induction hrun with
  | start => exact ⟨0, fun fuel _ => ⟨bd, rfl, hR⟩⟩
  | @call es bc₁ bc' b o past last ih =>
    obtain ⟨fuel₁, hpast⟩ := ih
    obtain ⟨rfl, fuel₂, hcall⟩ := last
    refine ⟨max fuel₁ fuel₂, fun fuel hle => ?_⟩
    obtain ⟨bd₁, hloop, hR₁⟩ := hpast fuel ((Nat.le_max_left _ _).trans hle)
    have hcall' := addBlock_ok_of_le ((Nat.le_max_right fuel₁ fuel₂).trans hle) hcall
    obtain ⟨bd', hadd, hR'⟩ := hstep hR₁ hcall' (Block.exported_exported b)
    refine ⟨bd', ?_, hR'⟩
    rw [added_concat]
    exact Act.forEach_concat hloop hadd

/-- **A copy that is behind catches up** by adding the blocks that it lacks. -/
theorem Mirrors.catch_up (hm : Mirrors bc bd) (hrun : History (Succeeded P) bc es bc') :
    ∃ fuel₀, ∀ fuel ≥ fuel₀, ∃ bd',
      Act.forEach (Blockchain.addBlock P fuel) (added es) bd = (.ok (), bd') ∧
        Mirrors bc' bd' :=
  catch_up_of_addBlock Mirrors.addBlock hm hrun

/-- The blocks of `es` stand in the store at consecutive heights, behind the block that the chain
was built from. -/
structure Numbered (es : List (Block × Outcome Err Unit)) (bc : Blockchain E MemoryStore) :
    Prop where
  length : bc.headers.length = es.length + 1
  fits : bc.headers.length ≤ 2 ^ 32
  stored : ∀ (i : ℕ) (x : Block), (added es)[i]? = some x →
    bc.store.blockAt (UInt32.ofNat (i + 1)) = some x

theorem Numbered.succeeded {o : Outcome Err Unit} (hbc : Numbered es bc)
    (hcall : Succeeded P bc b o bc') : Numbered (es ++ [(b, o)]) bc' := by
  have hlength := hbc.length
  obtain ⟨h, c', ws, valid, hheaders, hstore, -⟩ := hcall.appended
  obtain ⟨hroom, hheight, -⟩ := valid.extends (by omega) hbc.fits
  rw [MemoryStore.put_apply valid.header] at hstore
  refine ⟨?_, ?_, fun i x hx => ?_⟩
  · rw [hheaders, List.length_append, List.length_append, hlength]
    rfl
  · rw [hheaders, List.length_append]
    exact hroom
  rw [hstore]
  have hadded : (added es).length = es.length := List.length_map _
  rw [added_concat] at hx
  rcases getElem?_concat_cases hx with hold | ⟨rfl, rfl⟩
  · have hlt : i < (added es).length := (List.getElem?_eq_some_iff.mp hold).1
    have hne : UInt32.ofNat (i + 1) ≠ h.height := ofNat_ne_height (by omega)
    rw [MemoryStore.blockAt_insertBlock_of_ne _ _ hne]
    exact hbc.stored i x hold
  · rw [hadded, ← hlength, ← height_eq_ofNat hheight, MemoryStore.blockAt_insertBlock_self]

/-- **A run numbers its blocks.** -/
theorem Numbered.of_run (hstart : bc.headers.length = 1)
    (hrun : History (Succeeded P) bc es bc') : Numbered es bc' := by
  refine hrun.recorded Numbered ⟨hstart, ?_, fun i x hx => ?_⟩ ?_
  · rw [hstart]
    norm_num
  · exact absurd hx (by simp [added])
  · intro es bc b o bc' _ hbc hcall
    exact hbc.succeeded hcall

theorem Numbered.toNat_height (hbc : Numbered es bc) : bc.height.toNat = es.length := by
  have hlength := hbc.length
  exact (toNat_heightLocked (by omega) hbc.fits).trans (by omega)

/-- The blocks behind the first `m` and up to the `j`-th, as they are stored. -/
theorem Numbered.segment (hbc : Numbered es bc) (m : ℕ) {j : ℕ} (hj : j ≤ es.length) :
    (added ((es.take j).drop m)).map some =
      (List.range' (m + 1) (j - m)).map fun k => bc.store.blockAt (UInt32.ofNat k) := by
  have hlen : (added ((es.take j).drop m)).length = j - m := by
    unfold added
    rw [List.length_map, List.length_drop, List.length_take, Nat.min_eq_left hj]
  apply List.ext_getElem
  · rw [List.length_map, List.length_map, List.length_range', hlen]
  · intro i hi _
    rw [List.length_map] at hi
    have hget : (added ((es.take j).drop m))[i]? = some (added ((es.take j).drop m))[i] :=
      List.getElem?_eq_getElem hi
    rw [List.getElem_map, List.getElem_map, List.getElem_range', Nat.one_mul, Nat.add_right_comm]
    refine (hbc.stored (m + i) _ ?_).symm
    rw [← hget]
    unfold added
    rw [List.map_drop, List.map_take, List.getElem?_drop, List.getElem?_take_of_lt (by omega)]

/-! ### What a chain has in common with another one -/

omit [ConsensusEngine P E] in
theorem AgreesBelow.trans {k : ℕ} (h₁ : AgreesBelow k bc bd) (h₂ : AgreesBelow k bd bd') :
    AgreesBelow k bc bd' :=
  fun i hi => ⟨(h₂ i hi).1.trans (h₁ i hi).1, (h₂ i hi).2.trans (h₁ i hi).2⟩

/-- **What a run has added stays.** -/
theorem agreesBelow_of_run (hpos : 0 < bc.headers.length) (hfits : bc.headers.length ≤ 2 ^ 32)
    (hrun : History (Succeeded P) bc es bc') : AgreesBelow bc.headers.length bc' bc := by
  have hkept : bc.headers.length ≤ bc'.headers.length ∧ bc'.headers.length ≤ 2 ^ 32 ∧
      AgreesBelow bc.headers.length bc' bc := by
    refine hrun.invariant (fun bc' => bc.headers.length ≤ bc'.headers.length ∧
      bc'.headers.length ≤ 2 ^ 32 ∧ AgreesBelow bc.headers.length bc' bc)
      ⟨le_rfl, hfits, fun _ _ => ⟨rfl, rfl⟩⟩ ?_
    rintro bc₁ b o bc₂ ⟨hlen, hfits₁, hagree⟩ hcall
    obtain ⟨h, c', ws, valid, hheaders, hstore, -⟩ := hcall.appended
    obtain ⟨hroom, hheight, -⟩ := valid.extends (by omega) hfits₁
    rw [MemoryStore.put_apply valid.header] at hstore
    have hlen₂ : bc₂.headers.length = bc₁.headers.length + 1 := by
      rw [hheaders, List.length_append, List.length_singleton]
    refine ⟨by omega, by omega, fun i hi => ?_⟩
    -- the new block is behind all of them
    have hne : UInt32.ofNat i ≠ h.height := ofNat_ne_height (by omega)
    obtain ⟨hheader, hblock⟩ := hagree i hi
    rw [hheaders, List.getElem?_append_left (by omega), hstore,
      MemoryStore.blockAt_insertBlock_of_ne _ _ hne]
    exact ⟨hheader, hblock⟩
  exact hkept.2.2

end Blockchain

end Blockz
