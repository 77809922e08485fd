import Blockz.Chain.Coherence

/-!
# Reopening a store

`NewBlockchain` on a store that holds blocks reads their headers back. It runs none of their
transactions and adds none of their weights: the world state starts empty, and the accumulated
difficulty at zero.

* `Holds` — the store holds the blocks of a list of headers, without holes.
* `loadHeaders_of_holds` — the loop comes back with exactly these headers.
* `InPlace` — whatever the store returns for a height is a block of that height. Stores that have
  been written by `Put` are such, and from such a store the loop comes back with the headers of the
  heights from 0 on, up to the first that is missing (`loadHeaders_inPlace`).
* `restart_iff` — reopening gives the same headers, and the same world state and difficulty exactly
  when no block has been added since the chain was built.
-/

namespace Blockz

open Effect

variable {E S : Type} {P : Primitives} [Storage P S]

/-- The store holds a block for each header, at the height of its position, and nothing above. -/
structure Holds (P : Primitives) [Storage P S] (s : S) (hs : List Header) : Prop where
  get : ∀ (i : ℕ) (h : Header), hs[i]? = some h →
    ∃ b, Storage.get P s (UInt32.ofNat i) = .ok b ∧ b.header = some h
  missing : ∀ j : UInt32, hs.length ≤ j.toNat → ∃ e, Storage.get P s j = .err e

theorem Holds.put [LawfulStorage P S] {s : S} {hs : List Header} {b : Block} {h : Header}
    (hold : Holds P s hs) (hheader : b.header = some h) (hheight : h.height.toNat = hs.length) :
    Holds P (Storage.put P b s).2 (hs ++ [h]) := by
  refine ⟨fun i x hx => ?_, fun j hj => ?_⟩
  · rcases Blockchain.getElem?_concat_cases hx with hx | ⟨rfl, rfl⟩
    · have hlt : i < hs.length := (List.getElem?_eq_some_iff.mp hx).1
      have hne : UInt32.ofNat i ≠ h.height := Blockchain.ofNat_ne_height (by rwa [hheight])
      rw [LawfulStorage.get_put_of_ne s hheader hne]
      exact hold.get i x hx
    · rw [← Blockchain.height_eq_ofNat hheight]
      exact LawfulStorage.get_put_self s hheader
  · rw [List.length_append, List.length_singleton] at hj
    have hne : j ≠ h.height := by
      rintro rfl
      omega
    rw [LawfulStorage.get_put_of_ne s hheader hne]
    exact hold.missing j (by omega)

namespace Blockchain

/-- **The loop reads back what the store holds**, when it is given one round more than there are
blocks. -/
theorem loadHeaders_of_holds {s : S} {hs : List Header} (hold : Holds P s hs)
    (hroom : hs.length < 2 ^ 32) :
    ∀ k i, i + k = hs.length →
      loadHeaders P s (k + 1) (UInt32.ofNat i) (hs.take i) = .ok hs := by
  intro k
  induction k with
  | zero =>
    intro i hi
    obtain ⟨e, he⟩ := hold.missing (UInt32.ofNat i) (by
      rw [UInt32.toNat_ofNat', Nat.mod_eq_of_lt (by omega)]
      omega)
    rw [loadHeaders, he, List.take_of_length_le (by omega)]
  | succ k ih =>
    intro i hi
    have hlt : i < hs.length := by omega
    obtain ⟨b, hget, hheader⟩ := hold.get i hs[i] (List.getElem?_eq_getElem hlt)
    have hnext : UInt32.ofNat i + 1 = UInt32.ofNat (i + 1) := (UInt32.ofNat_add i 1).symm
    rw [loadHeaders, hget]
    change (Outcome.deref b.header >>= fun h =>
      loadHeaders P s (k + 1) (UInt32.ofNat i + 1) (hs.take i ++ [h])) = _
    rw [hheader, Outcome.deref_some, Outcome.bind_ok, hnext, List.take_concat_get' hs i hlt]
    exact ih (i + 1) (by omega)

/-- More rounds do not change the answer. -/
theorem loadHeaders_unique {s : S} {fuel fuel' : ℕ} {i : UInt32} {acc hs hs' : List Header}
    (h : loadHeaders P s fuel i acc = .ok hs) (h' : loadHeaders P s fuel' i acc = .ok hs') :
    hs = hs' := by
  induction fuel generalizing fuel' i acc with
  | zero => exact absurd h (by simp [loadHeaders])
  | succ fuel ih =>
    cases fuel' with
    | zero => exact absurd h' (by simp [loadHeaders])
    | succ fuel' =>
      rw [loadHeaders] at h h'
      cases hget : Storage.get P s i with
      | ok b =>
        rw [hget] at h h'
        obtain ⟨x, hx, hload⟩ := Outcome.bind_eq_ok.mp h
        obtain ⟨x', hx', hload'⟩ := Outcome.bind_eq_ok.mp h'
        obtain rfl : x = x' := Outcome.ok.inj (hx.symm.trans hx')
        exact ih hload hload'
      | err e =>
        rw [hget] at h h'
        exact (Outcome.ok.inj h).symm.trans (Outcome.ok.inj h')
      | panic p =>
        rw [hget] at h
        exact absurd h (by simp)
      | outOfFuel =>
        rw [hget] at h
        exact absurd h (by simp)

/-! ### Stores with holes -/

/-- A block is found at its own height only. -/
def InPlace (P : Primitives) [Storage P S] (s : S) : Prop :=
  ∀ (i : UInt32) (b : Block), Storage.get P s i = .ok b → ∃ h, b.header = some h ∧ h.height = i

theorem InPlace.of_empty {s : S} (hempty : ∀ i, ∃ e, Storage.get P s i = .err e) :
    InPlace P s := by
  intro i b hget
  obtain ⟨e, hmissing⟩ := hempty i
  exact nomatch hget.symm.trans hmissing

theorem InPlace.put [LawfulStorage P S] {s : S} {b : Block} {h : Header} (hstore : InPlace P s)
    (hheader : b.header = some h) : InPlace P (Storage.put P b s).2 := by
  intro i b' hget
  by_cases hi : i = h.height
  · subst hi
    obtain ⟨b'', hself, hheader'⟩ := LawfulStorage.get_put_self (P := P) s hheader
    obtain rfl := Outcome.ok.inj (hself.symm.trans hget)
    exact ⟨h, hheader', rfl⟩
  · rw [LawfulStorage.get_put_of_ne s hheader hi] at hget
    exact hstore i b' hget

theorem loadHeaders_inPlace {s : S} (hstore : InPlace P s) {fuel : ℕ} {i : UInt32}
    {acc hs : List Header} (hload : loadHeaders P s fuel i acc = .ok hs) :
    ∃ more, hs = acc ++ more ∧
      (∀ (j : ℕ) (h : Header), more[j]? = some h →
        h.height = i + UInt32.ofNat j ∧ ∃ b, Storage.get P s (i + UInt32.ofNat j) = .ok b) ∧
      ∃ e, Storage.get P s (i + UInt32.ofNat more.length) = .err e := by
  induction fuel generalizing i acc with
  | zero => exact absurd hload (by simp [loadHeaders])
  | succ fuel ih =>
    rw [loadHeaders] at hload
    cases hget : Storage.get P s i with
    | ok b =>
      rw [hget] at hload
      obtain ⟨h, hh, hrest⟩ := Outcome.bind_eq_ok.mp hload
      obtain ⟨h', hheader, hheight⟩ := hstore i b hget
      obtain rfl := Option.some.inj ((Outcome.deref_eq_ok.mp hh).symm.trans hheader)
      obtain ⟨more, rfl, hloaded, hend⟩ := ih hrest
      have hnext : ∀ j : ℕ, i + 1 + UInt32.ofNat j = i + UInt32.ofNat (j + 1) := by
        intro j
        rw [UInt32.ofNat_add, UInt32.add_assoc, UInt32.add_comm (UInt32.ofNat j)]
        rfl
      refine ⟨h :: more, by simp, fun j x hx => ?_, ?_⟩
      · cases j with
        | zero =>
          obtain rfl := Option.some.inj hx
          have hzero : i + UInt32.ofNat 0 = i := UInt32.add_zero i
          rw [hzero]
          exact ⟨hheight, b, hget⟩
        | succ j =>
          rw [← hnext]
          exact hloaded j x hx
      · rw [List.length_cons, ← hnext]
        exact hend
    | err e =>
      rw [hget] at hload
      refine ⟨[], by rw [← Outcome.ok.inj hload, List.append_nil], by simp, e, ?_⟩
      have hzero : i + UInt32.ofNat 0 = i := UInt32.add_zero i
      exact (congrArg (Storage.get P s) hzero).trans hget
    | panic p =>
      rw [hget] at hload
      exact absurd hload (by simp)
    | outOfFuel =>
      rw [hget] at hload
      exact absurd hload (by simp)

/-! ### Building a chain -/

section Restart

variable [ConsensusEngine P E]

/-- A chain as `NewBlockchain` leaves it: the store holds its headers, and nothing is accumulated.
-/
structure Opened (P : Primitives) [Storage P S] (bc : Blockchain E S) : Prop where
  holds : Holds P bc.store bc.headers
  nonempty : 0 < bc.headers.length
  worldState : bc.worldState = WorldState.new
  totalDifficulty : bc.totalDifficulty = some 0

/-- `NewBlockchain` on a store with blocks. -/
theorem newBlockchain_of_holds {s : S} {hs : List Header} (hold : Holds P s hs)
    (hpos : 0 < hs.length) (hroom : hs.length < 2 ^ 32) (genesis : Block) :
    (newBlockchain P (hs.length + 1) genesis s : Outcome Err (Blockchain E S)) =
      .ok { empty s WorldState.new (some 0) with headers := hs } := by
  obtain ⟨b, hget, -⟩ := hold.get 0 hs[0] (List.getElem?_eq_getElem hpos)
  have hfirst : Storage.get P s 0 = .ok b := hget
  have hload : loadHeaders P s (hs.length + 1) 0 [] = .ok hs :=
    loadHeaders_of_holds hold hroom hs.length 0 (Nat.zero_add _)
  unfold newBlockchain
  simp only [hfirst, hload]
  rfl

theorem Opened.of_newBlockchain [LawfulStorage P S] {s : S} {hs : List Header} {genesis : Block}
    {g : Header} {fuel : ℕ} {bc : Blockchain E S} (hold : Holds P s hs)
    (hroom : hs.length < 2 ^ 32) (hg : genesis.header = some g) (hzero : g.height = 0)
    (hnew : newBlockchain P fuel genesis s = .ok bc) :
    Opened P bc ∧ bc.headers.length < 2 ^ 32 := by
  rcases Nat.eq_zero_or_pos hs.length with hempty | hpos
  · -- an empty store: the genesis block goes in
    obtain rfl := List.eq_nil_of_length_eq_zero hempty
    obtain ⟨e, hget⟩ := hold.missing 0 (Nat.zero_le _)
    have hadd : addBlockWithoutValidationLocked P genesis
        (empty s WorldState.new (some 0) : Blockchain E S) =
          (.ok (), { empty s WorldState.new (some 0) with
            headers := [g], store := (Storage.put P genesis s).2 }) := by
      unfold addBlockWithoutValidationLocked
      rw [hg, Outcome.deref_some, Act.bind_apply_ok (Act.lift_apply _ _), Act.modify_bind_apply,
        Act.bind_apply_ok (show addWeight P g _ = (.ok (), _) from rfl), Act.on_apply]
      exact Prod.ext (LawfulStorage.put_ok s hg) rfl
    unfold newBlockchain at hnew
    simp only [hget, hadd, Outcome.bind_ok] at hnew
    obtain rfl := Outcome.ok.inj hnew
    refine ⟨⟨?_, Nat.one_pos, rfl, rfl⟩, ?_⟩
    · exact hold.put hg (by rw [hzero]; rfl)
    · change 1 < 2 ^ 32
      norm_num
  · -- the headers are read back
    obtain ⟨b, hget, -⟩ := hold.get 0 hs[0] (List.getElem?_eq_getElem hpos)
    have hfirst : Storage.get P s 0 = .ok b := hget
    unfold newBlockchain at hnew
    simp only [hfirst] at hnew
    obtain ⟨hs', hload, hbc⟩ := Outcome.bind_eq_ok.mp hnew
    obtain rfl : hs = hs' :=
      loadHeaders_unique (loadHeaders_of_holds hold hroom hs.length 0 (Nat.zero_add _)) hload
    obtain rfl := Outcome.ok.inj hbc
    exact ⟨⟨hold, hpos, rfl, rfl⟩, hroom⟩

/-! ### Runs and restarts -/

/-- A call of `AddBlock` that succeeded. -/
def Succeeded (P : Primitives) [ConsensusEngine P E] [Storage P S] (bc : Blockchain E S)
    (b : Block) (o : Outcome Err Unit) (bc' : Blockchain E S) : Prop :=
  o = .ok () ∧ ∃ fuel, addBlock P fuel b bc = (o, bc')

/-- What a successful call leaves. -/
theorem Succeeded.appended {bc bc' : Blockchain E S} {b : Block} {o : Outcome Err Unit}
    (hcall : Succeeded P bc b o bc') :
    ∃ (h : Header) (c' : Option E) (ws : WorldState), Valid P bc b h c' ∧
      bc'.headers = bc.headers ++ [h] ∧
      bc'.store = (Storage.put P b bc.store).2 ∧
      bc'.worldState = ws.addBalance h.coinbase blockReward := by
  obtain ⟨rfl, fuel, hcall⟩ := hcall
  obtain ⟨h, c', ws, total, s, valid, -, -, put, rfl⟩ := addBlock_eq_ok hcall
  exact ⟨h, c', ws, valid, rfl, by rw [put], rfl⟩

/-- The store holds the headers of the chain after every successful run. -/
theorem holds_of_run [LawfulStorage P S] {bc₀ bc : Blockchain E S}
    {es : List (Block × Outcome Err Unit)} (hrun : History (Succeeded P) bc₀ es bc)
    (hstart : Holds P bc₀.store bc₀.headers) (hpos : 0 < bc₀.headers.length)
    (hfits : bc₀.headers.length ≤ 2 ^ 32) :
    Holds P bc.store bc.headers ∧ 0 < bc.headers.length := by
  suffices h : Holds P bc.store bc.headers ∧ 0 < bc.headers.length ∧
      bc.headers.length ≤ 2 ^ 32 from ⟨h.1, h.2.1⟩
  refine hrun.invariant (fun bc => Holds P bc.store bc.headers ∧ 0 < bc.headers.length ∧
    bc.headers.length ≤ 2 ^ 32) ⟨hstart, hpos, hfits⟩ ?_
  rintro bc b o bc' ⟨hold, hpos, hfits⟩ hcall
  obtain ⟨h, c', ws, valid, hheaders, hstore, -⟩ := hcall.appended
  obtain ⟨hroom, hheight, -⟩ := valid.extends hpos hfits
  rw [hheaders, hstore, List.length_append, List.length_singleton]
  exact ⟨hold.put valid.header hheight, by omega, by omega⟩

/-- **When a restart changes nothing.** The store is reopened after any run of successful calls.
The headers are the same. World state and accumulated difficulty are the same exactly when the run
is empty: whatever was added since the chain was built is lost. -/
theorem restart_iff [LawfulStorage P S] {s : S} {hs : List Header} {genesis : Block} {g : Header}
    {fuel : ℕ} {c : Option E} {bc₀ bc : Blockchain E S} {es : List (Block × Outcome Err Unit)}
    (hstore : Holds P s hs) (hsize : hs.length < 2 ^ 32) (hg : genesis.header = some g)
    (hzero : g.height = 0) (hnew : newBlockchain P fuel genesis s = .ok bc₀)
    (hrun : History (Succeeded P) { bc₀ with consensus := c } es bc)
    (hroom : bc.headers.length < 2 ^ 32) :
    ∃ fuel' bc₁, newBlockchain P fuel' genesis bc.store = .ok (bc₁ : Blockchain E S) ∧
      bc₁.headers = bc.headers ∧
      ((bc₁.worldState = bc.worldState ∧ bc₁.totalDifficulty = bc.totalDifficulty) ↔ es = []) := by
  obtain ⟨hopened, hfits⟩ := Opened.of_newBlockchain hstore hsize hg hzero hnew
  obtain ⟨hold, hpos⟩ := holds_of_run hrun hopened.holds hopened.nonempty hfits.le
  refine ⟨_, _, newBlockchain_of_holds hold hpos hroom genesis, rfl, ?_⟩
  change WorldState.new = bc.worldState ∧ some 0 = bc.totalDifficulty ↔ es = []
  cases hrun with
  | start =>
    exact ⟨fun _ => rfl, fun _ => ⟨hopened.worldState.symm, hopened.totalDifficulty.symm⟩⟩
  | call past last =>
    -- the last block has created the account of its coinbase
    refine ⟨fun hsame => ?_, fun hnil => absurd hnil (by simp)⟩
    obtain ⟨h, c', ws, -, -, -, hws⟩ := last.appended
    have hmem : h.coinbase ∈ bc.worldState.accounts := by
      rw [hws]
      exact WorldState.mem_updateAccount ws _ _
    rw [← hsame.1] at hmem
    exact absurd hmem Finmap.notMem_empty

end Restart

/-! ### A restart that loses the reward -/

def sampleGenesisBlock : Block := { header := some sampleGenesis, transactions := [] }

theorem holds_empty : Holds P MemoryStore.new [] :=
  ⟨fun i h hi => absurd hi (by simp), fun j _ => ⟨.blockNotFound j, rfl⟩⟩

/-- The criterion for a run of one block. -/
theorem restart_iff_minedBlock :
    (addBlock .sample 1 minedBlock minedChain).1 = .ok () ∧
      ∃ fuel' bc₁, newBlockchain .sample fuel' sampleGenesisBlock
          (addBlock .sample 1 minedBlock minedChain).2.store =
            .ok (bc₁ : Blockchain PoWEngine MemoryStore) ∧
        bc₁.headers = (addBlock .sample 1 minedBlock minedChain).2.headers ∧
        ((bc₁.worldState = (addBlock .sample 1 minedBlock minedChain).2.worldState ∧
            bc₁.totalDifficulty = (addBlock .sample 1 minedBlock minedChain).2.totalDifficulty) ↔
          [(minedBlock, (.ok () : Outcome Err Unit))] = []) := by
  have hok : (addBlock .sample 1 minedBlock minedChain).1 = .ok () := by decide +kernel
  have hcall : Succeeded .sample minedChain minedBlock (.ok ())
      (addBlock .sample 1 minedBlock minedChain).2 := ⟨rfl, 1, Act.eq_mk_of_fst hok⟩
  have hrun : History (Succeeded .sample) minedChain [(minedBlock, .ok ())] _ :=
    .call .start hcall
  have hroom : (addBlock .sample 1 minedBlock minedChain).2.headers.length < 2 ^ 32 := by
    decide +kernel
  exact ⟨hok, restart_iff holds_empty (by norm_num) rfl rfl newBlockchain_sampleChain hrun hroom⟩

/-- **A restart loses balances and difficulty.** The block has paid 5 to its coinbase and weighs 1.
The reopened chain has both headers, no balance and no difficulty. -/
theorem restart_loses_reward :
    (addBlock .sample 1 minedBlock minedChain).1 = .ok () ∧
      (addBlock .sample 1 minedBlock minedChain).2.worldState.getBalance (sampleAddress 1) = 5 ∧
      (addBlock .sample 1 minedBlock minedChain).2.totalDifficulty = some 1 ∧
      ((newBlockchain .sample 3 sampleGenesisBlock
          (addBlock .sample 1 minedBlock minedChain).2.store :
            Outcome Err (Blockchain PoWEngine MemoryStore)) >>= fun bc₁ =>
          .ok (bc₁.headers.length, bc₁.worldState.getBalance (sampleAddress 1),
            bc₁.totalDifficulty)) = .ok (2, 0, some 0) := by
  decide +kernel

end Blockchain

end Blockz
