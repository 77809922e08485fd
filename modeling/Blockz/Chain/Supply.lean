import Blockz.Chain.Coherence

/-!
# Where value comes from and where it goes

Balances are `uint64`, and neither `Transfer` nor `AddBalance` checks its credit. That nothing
wraps is a consequence of what the whole system does: transactions keep the total, only the block
reward raises it, and a chain has room for `2 ^ 32` headers.

* `AddStep.flow` — one call, however it ends: a flow along the transactions of a valid block, and
  one reward if and only if a header is appended.
* `supply_of_run` — the exact total over every run, and the exactness of every credit and debit.
* `debit_bounded` — nobody loses more than the verified transactions of their own key send.
-/

namespace Blockz

open Effect

namespace Blockchain

variable {E S : Type} {P : Primitives} [ConsensusEngine P E] [Storage P S]

/-- **The ledger over one call of `AddBlock`.** -/
theorem AddStep.flow {fuel : ℕ} {bc bc' : Blockchain E S} {b : Block} {o : Outcome Err Unit}
    (hstep : AddStep P fuel bc b o bc') (hfit : bc.worldState.supply + 5 < 2 ^ 64) :
    ((∀ u, (validateBlockLocked P b bc).1 ≠ .ok u) ∧ bc'.headers = bc.headers ∧
        bc'.worldState = bc.worldState) ∨
      ∃ h c', Valid P bc b h c' ∧
        ((bc'.headers = bc.headers ∧
            Ledger.Flow bc.worldState.ledger bc'.worldState.ledger (debits P b.transactions)) ∨
          (bc'.headers = bc.headers ++ [h] ∧ ∃ l,
            Ledger.Flow bc.worldState.ledger l (debits P b.transactions) ∧
              bc'.worldState.ledger = Ledger.mint l h.coinbase 5)) := by
  have hfit₀ : bc.worldState.supply < 2 ^ 64 := by omega
  -- what is common to the calls that reach the reward
  have hreward : ∀ {h : Header} {c' : Option E} {ws : WorldState}, Valid P bc b h c' →
      executeTransactions P fuel b.transactions bc.worldState = (.ok (), ws) →
      Ledger.Flow bc.worldState.ledger ws.ledger (debits P b.transactions) ∧
        (ws.addBalance h.coinbase blockReward).ledger = Ledger.mint ws.ledger h.coinbase 5 := by
    intro h c' ws valid executed
    have hflow := executeTransactions_flow valid.signed fuel hfit₀
    rw [executed] at hflow
    have hroom : ws.supply + blockReward.toNat < 2 ^ 64 := by
      rw [executeTransactions_supply valid.signed hfit₀ executed]
      exact hfit
    exact ⟨hflow, WorldState.ledger_addBalance ws hroom⟩
  cases hstep with
  | invalid refused stop =>
    refine Or.inl ⟨?_, rfl, rfl⟩
    rw [refused]
    exact stop
  | aborted valid executed _ =>
    have hflow := executeTransactions_flow valid.signed fuel hfit₀
    rw [executed] at hflow
    exact Or.inr ⟨_, _, valid, Or.inl ⟨rfl, hflow⟩⟩
  | crashed valid executed _ =>
    obtain ⟨hflow, hmint⟩ := hreward valid executed
    exact Or.inr ⟨_, _, valid, Or.inr ⟨rfl, _, hflow, hmint⟩⟩
  | appended valid executed _ _ =>
    obtain ⟨hflow, hmint⟩ := hreward valid executed
    exact Or.inr ⟨_, _, valid, Or.inr ⟨rfl, _, hflow, hmint⟩⟩

/-! ### The total -/

/-- One call of `AddBlock`, however it ends. -/
def Called (P : Primitives) [ConsensusEngine P E] [Storage P S] (bc : Blockchain E S) (b : Block)
    (o : Outcome Err Unit) (bc' : Blockchain E S) : Prop :=
  ∃ fuel, addBlock P fuel b bc = (o, bc')

/-- The total is the initial one and a reward for each header after the first. -/
structure Funded (T₀ : ℕ) (bc : Blockchain E S) : Prop where
  nonempty : 0 < bc.headers.length
  fits : bc.headers.length ≤ 2 ^ 32
  supply : bc.worldState.supply = T₀ + 5 * (bc.headers.length - 1)

theorem Funded.called {T₀ : ℕ} {bc bc' : Blockchain E S} {b : Block} {o : Outcome Err Unit}
    (hbc : Funded T₀ bc) (hT : T₀ + 5 * (2 ^ 32 - 1) < 2 ^ 64) (hcall : Called P bc b o bc') :
    Funded T₀ bc' := by
  obtain ⟨fuel, hcall⟩ := hcall
  have hstep := AddStep.of_call hcall
  have hpos := hbc.nonempty
  have hfits := hbc.fits
  have hsupply := hbc.supply
  by_cases hroom : bc.headers.length < 2 ^ 32
  case neg =>
    -- a full chain accepts nothing
    obtain ⟨c', rfl⟩ := hstep.of_not_valid fun h c' valid =>
      hroom (valid.extends hpos hfits).1
    exact ⟨hpos, hfits, hsupply⟩
  case pos =>
    rcases hstep.flow (by omega) with ⟨-, hheaders, hws⟩ | ⟨h, c', -, hcase⟩
    · exact ⟨by rwa [hheaders], by rwa [hheaders], by rw [hheaders, hws, hsupply]⟩
    · rcases hcase with ⟨hheaders, hflow⟩ | ⟨hheaders, l, hflow, hmint⟩
      · have hsame : bc'.worldState.supply = bc.worldState.supply := by
          rw [WorldState.supply_eq_degree, hflow.total, ← WorldState.supply_eq_degree]
        exact ⟨by rwa [hheaders], by rwa [hheaders], by rw [hheaders, hsame, hsupply]⟩
      · have hmore : bc'.worldState.supply = bc.worldState.supply + 5 := by
          rw [WorldState.supply_eq_degree, hmint, Ledger.degree_mint, hflow.total,
            ← WorldState.supply_eq_degree]
        have hlen : bc'.headers.length = bc.headers.length + 1 := by
          rw [hheaders, List.length_append, List.length_singleton]
        exact ⟨by omega, by omega, by omega⟩

/-- The word arithmetic of the next call is exact: what `Transfer` and `AddBalance` do to the
balances is what the exact ledger says, so no credit wraps and no debit underflows. -/
structure ExactCalls (P : Primitives) [ConsensusEngine P E] (bc : Blockchain E S) : Prop where
  -- the transfer of a transaction, on the world state that it finds after its code has run
  transfer : ∀ fuel b h c', Valid P bc b h c' → ∀ pre tx post ws ws' a,
    b.transactions = pre ++ tx :: post →
    executeTransactions P fuel pre bc.worldState = (.ok (), ws) →
    runContract P fuel tx ws = (.ok (), ws') → tx.sender P = some a →
    (WorldState.transfer a tx.toAddr tx.value ws').1 = .ok () →
    tx.value.toNat ≤ (ws'.getBalance a).toNat ∧
      (WorldState.transfer a tx.toAddr tx.value ws').2.ledger =
        Ledger.move ws'.ledger a tx.toAddr tx.value.toNat
  reward : ∀ fuel b h c' ws, Valid P bc b h c' →
    executeTransactions P fuel b.transactions bc.worldState = (.ok (), ws) →
    (ws.addBalance h.coinbase blockReward).ledger =
      Ledger.mint ws.ledger h.coinbase blockReward.toNat

omit [Storage P S] in
theorem Funded.exactCalls {T₀ : ℕ} {bc : Blockchain E S} (hbc : Funded T₀ bc)
    (hT : T₀ + 5 * (2 ^ 32 - 1) < 2 ^ 64) : ExactCalls P bc := by
  have hsupply := hbc.supply
  have hroom : ∀ {b : Block} {h : Header} {c' : Option E}, Valid P bc b h c' →
      bc.worldState.supply + 5 < 2 ^ 64 := by
    intro b h c' valid
    have hlt := (valid.extends hbc.nonempty hbc.fits).1
    omega
  refine ⟨?_, ?_⟩
  · intro fuel b h c' valid pre tx post ws ws' a hsplit hpre hrun _ hok
    have hfit := hroom valid
    have hsigned : ∀ t ∈ pre, ∃ a, t.SignedBy P a :=
      fun t ht => valid.signed t (by rw [hsplit]; exact List.mem_append_left _ ht)
    have hfit' : ws'.supply < 2 ^ 64 := by
      rw [WorldState.supply_eq_degree, (ExecStep.writes_of_run hrun).ledger_eq,
        ← WorldState.supply_eq_degree, executeTransactions_supply hsigned (by omega) hpre]
      omega
    rcases WorldState.transfer_cases a tx.toAddr tx.value ws' with ⟨e, he⟩ | ⟨hpaid, -, hhas⟩
    · rw [he] at hok
      exact absurd hok (by simp)
    · rw [hpaid]
      exact ⟨hhas, WorldState.ledger_debitCredit ws' hhas hfit'⟩
  · intro fuel b h c' ws valid executed
    have hfit := hroom valid
    refine WorldState.ledger_addBalance ws ?_
    rw [executeTransactions_supply valid.signed (by omega) executed]
    exact hfit

/-- **Supply conservation.** From a chain of one header, whatever blocks are submitted and however
the calls end, the balances add up to the initial total and five for every further header, and the
arithmetic of the next call is exact. -/
theorem supply_of_run {T₀ : ℕ} {bc₀ bc : Blockchain E S} {es : List (Block × Outcome Err Unit)}
    (hfresh : bc₀.headers.length = 1) (hsupply : bc₀.worldState.supply = T₀)
    (hT : T₀ + 5 * (2 ^ 32 - 1) < 2 ^ 64) (hrun : History (Called P) bc₀ es bc) :
    bc.worldState.supply = T₀ + 5 * (bc.headers.length - 1) ∧ ExactCalls P bc := by
  have hstart : Funded T₀ bc₀ := by
    refine ⟨by omega, by omega, ?_⟩
    rw [hsupply, hfresh]
    rfl
  have hbc : Funded T₀ bc := by
    refine hrun.invariant (Funded T₀) hstart ?_
    intro bc b o bc' hbc hcall
    exact hbc.called hT hcall
  exact ⟨hbc.supply, hbc.exactCalls hT⟩

/-- A run of one accepted block from a chain without funds. -/
theorem supply_of_run_minedBlock :
    minedChain.worldState.supply = 0 ∧
      (addBlock .sample 1 minedBlock minedChain).2.worldState.supply =
        0 + 5 * ((addBlock .sample 1 minedBlock minedChain).2.headers.length - 1) := by
  have hcall : Called .sample minedChain minedBlock (addBlock .sample 1 minedBlock minedChain).1
      (addBlock .sample 1 minedBlock minedChain).2 := ⟨1, Prod.mk.eta.symm⟩
  have hrun : History (Called .sample) minedChain _ _ := .call .start hcall
  have hfresh : minedChain.headers.length = 1 := rfl
  have hzero : minedChain.worldState.supply = 0 := rfl
  exact ⟨hzero, (supply_of_run hfresh hzero (by norm_num) hrun).1⟩

/-! ### Who pays -/

/-- The sum of `tx.Value` over the transactions with `tx.From.Address() = a`. -/
def valueSentBy (P : Primitives) (txx : List Transaction) (a : Address) : ℕ :=
  ((txx.filter fun tx => tx.fromKey.address P = .ok a).map fun tx => tx.value.toNat).sum

omit [ConsensusEngine P E] [Storage P S] in
theorem debits_eq_valueSentBy (txx : List Transaction) (a : Address) :
    debits P txx a = valueSentBy P txx a := by
  unfold valueSentBy
  induction txx with
  | nil => rfl
  | cons tx txx ih =>
    have hiff : tx.sender P = some a ↔ tx.fromKey.address P = .ok a := by
      unfold Transaction.sender
      rw [Option.map_eq_some_iff, PublicKey.address_eq_ok]
    rw [debits, ih, List.filter_cons]
    by_cases h : tx.fromKey.address P = .ok a
    · rw [if_pos (hiff.mpr h), if_pos (decide_eq_true h), List.map_cons, List.sum_cons]
    · rw [if_neg (fun hs => h (hiff.mp hs)), if_neg (by simpa using h), Nat.zero_add]

/-- **No unauthorised debit.** However the call ends: the balance of `a` falls by at most the values
that the key of `a` sends in the block, and only if every transaction of the block has passed
`Verify`. It does not fall when validation refuses the block, or when `a` sends nothing in it. -/
theorem debit_bounded (bc : Blockchain E S) (hfit : bc.worldState.supply < 2 ^ 64 - 5) (fuel : ℕ)
    (b : Block) (a : Address) :
    (bc.worldState.getBalance a).toNat ≤
        ((addBlock P fuel b bc).2.worldState.getBalance a).toNat +
          valueSentBy P b.transactions a ∧
      ((addBlock P fuel b bc).2.worldState.getBalance a < bc.worldState.getBalance a →
        ∀ tx ∈ b.transactions, tx.verify P = .ok ()) ∧
      ((∀ u, (validateBlockLocked P b bc).1 ≠ .ok u) →
        bc.worldState.getBalance a ≤ (addBlock P fuel b bc).2.worldState.getBalance a) ∧
      ((∀ tx ∈ b.transactions, tx.fromKey.address P ≠ .ok a) →
        bc.worldState.getBalance a ≤ (addBlock P fuel b bc).2.worldState.getBalance a) := by
  have hstep := addBlock_step (P := P) fuel b bc
  -- a refused block changes no balance, a valid one is a flow and at most one reward
  have hcases : ((∀ u, (validateBlockLocked P b bc).1 ≠ .ok u) ∧
        (addBlock P fuel b bc).2.worldState = bc.worldState) ∨
      ∃ h c', Valid P bc b h c' ∧ bc.worldState.ledger a ≤
        (addBlock P fuel b bc).2.worldState.ledger a + debits P b.transactions a := by
    rcases hstep.flow (by omega) with ⟨hrefused, -, hws⟩ | ⟨h, c', valid, hcase⟩
    · exact Or.inl ⟨hrefused, hws⟩
    · refine Or.inr ⟨h, c', valid, ?_⟩
      rcases hcase with ⟨-, hflow⟩ | ⟨-, l, hflow, hmint⟩
      · exact hflow.debit a
      · have hdebit := hflow.debit a
        have hle := Ledger.le_mint l h.coinbase a 5
        rw [hmint]
        omega
  rw [← debits_eq_valueSentBy]
  simp only [UInt64.le_iff_toNat_le, UInt64.lt_iff_toNat_lt, ← WorldState.ledger_apply]
  rcases hcases with ⟨-, hws⟩ | ⟨h, c', valid, hdebit⟩
  · rw [hws]
    exact ⟨Nat.le_add_right _ _, fun hlt => absurd hlt (lt_irrefl _), fun _ => le_rfl,
      fun _ => le_rfl⟩
  · obtain ⟨-, -, -, -, -, hverified, -⟩ := Block.verify_eq_ok valid.verify
    refine ⟨hdebit, fun _ => hverified, fun hrefused => ?_, fun hnone => ?_⟩
    · exact absurd (by rw [valid.validate]) (hrefused ())
    · have hzero : debits P b.transactions a = 0 := by
        rw [debits_eq_valueSentBy, valueSentBy, List.filter_eq_nil_iff.mpr]
        · rfl
        · intro tx hmem
          simpa using hnone tx hmem
      omega

/-- A sender with 100 pays 9. -/
def payingChain : Blockchain PoWEngine MemoryStore :=
  { sampleChain with
    worldState := WorldState.new.addBalance (sampleKey.key.publicKey.address .sample) 100 }

def payingBlock : Block := sampleBlock sampleGenesis [sampleTransfer 9 0] (sampleAddress 1)

/-- The bound is reached. -/
theorem debit_bounded_payingBlock :
    payingChain.worldState.supply < 2 ^ 64 - 5 ∧
      ((addBlock .sample 1 payingBlock payingChain).2.worldState.getBalance
        (sampleKey.key.publicKey.address .sample)).toNat = 91 ∧
      (payingChain.worldState.getBalance (sampleKey.key.publicKey.address .sample)).toNat ≤
        ((addBlock .sample 1 payingBlock payingChain).2.worldState.getBalance
          (sampleKey.key.publicKey.address .sample)).toNat +
          valueSentBy .sample payingBlock.transactions
            (sampleKey.key.publicKey.address .sample) := by
  have hfit : payingChain.worldState.supply < 2 ^ 64 - 5 := by decide +kernel
  exact ⟨hfit, by decide +kernel, (debit_bounded payingChain hfit 1 payingBlock _).1⟩

end Blockchain

end Blockz
