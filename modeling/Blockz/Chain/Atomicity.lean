import Blockz.Chain.Step

/-!
# When a refused block leaves no trace

`AddBlock` returns from inside its loop when a transaction fails, and undoes nothing. A block that
validation refuses leaves the chain as it was, up to the state of the engine. A valid block that
fails later leaves what its transactions have written up to the failure.

* `addBlock_untouched_iff` — failing calls leave the chain untouched exactly when the block is not
  valid or no transaction of it can fail but the first one, with code that leaves the world state as
  it was: it has stored nothing, or what stood there before.
* `addBlock_keeps_nonce_of_refused` — a refused block after which the sender's nonce is 1.
-/

namespace Blockz

open Effect

namespace Blockchain

variable {E : Type} {P : Primitives} [ConsensusEngine P E]

/-- World state, headers, store and accumulated difficulty are the same. -/
structure Untouched (bc bc' : Blockchain E MemoryStore) : Prop where
  worldState : bc'.worldState = bc.worldState
  headers : bc'.headers = bc.headers
  store : bc'.store = bc.store
  totalDifficulty : bc'.totalDifficulty = bc.totalDifficulty

/-- No transaction of the block fails, except possibly the first one, and then its code has left
the world state as it was. Blocks that are not valid meet this, since none of their transactions
is executed. -/
def OnlyFirstFails (P : Primitives) [ConsensusEngine P E] (bc : Blockchain E MemoryStore)
    (b : Block) : Prop :=
  ∀ h c', Valid P bc b h c' → ∀ fuel pre tx post ws e ws', b.transactions = pre ++ tx :: post →
    executeTransactions P fuel pre bc.worldState = (.ok (), ws) →
    executeTransaction P fuel tx ws = (.err e, ws') →
    pre = [] ∧ (runContract P fuel tx bc.worldState).2 = bc.worldState

omit [ConsensusEngine P E] in
/-- The transactions that ran before a failing one have left their mark on a nonce. -/
theorem eq_nil_of_getNonce_eq {pre : List Transaction} {fuel : ℕ} {ws ws' : WorldState}
    (hsigned : ∀ tx ∈ pre, ∃ a, tx.SignedBy P a) (hlen : pre.length < 2 ^ 63)
    (hok : executeTransactions P fuel pre ws = (.ok (), ws'))
    (hsame : ∀ a, ws'.getNonce a = ws.getNonce a) : pre = [] := by
  cases pre with
  | nil => rfl
  | cons tx pre =>
    obtain ⟨a, htx⟩ := hsigned tx List.mem_cons_self
    have hnonce := executeTransactions_getNonce hsigned hok a
    rw [hsame a] at hnonce
    have hle := sentBy_le_length (P := P) (tx :: pre) a
    have hpos : 0 < sentBy P (tx :: pre) a := by
      rw [sentBy, if_pos htx.sender]
      omega
    -- the nonce went round by a multiple of `2 ^ 64`, and there are fewer transactions
    have htoNat := congrArg UInt64.toNat hnonce
    rw [UInt64.toNat_add, UInt64.toNat_ofNat'] at htoNat
    have hbound := (ws.getNonce a).toNat_lt
    omega

/-- **When `AddBlock` is all-or-nothing.** -/
theorem addBlock_untouched_iff (bc : Blockchain E MemoryStore) (b : Block)
    (hlen : b.transactions.length < 2 ^ 63) :
    (∀ fuel e bc', addBlock P fuel b bc = (.err e, bc') → Untouched bc bc') ↔
      OnlyFirstFails P bc b := by
  constructor
  · intro huntouched h c' valid fuel pre tx post ws e ws' hsplit hpre hfail
    have hexec : executeTransactions P fuel b.transactions bc.worldState = (.err e, ws') :=
      (Act.forEach_stop (by simp)).mpr ⟨pre, tx, post, ws, hsplit, hpre, hfail⟩
    have hcall := addBlock_of_stopped valid hexec (by simp)
    have hsame : ws' = bc.worldState := (huntouched fuel e _ hcall).worldState
    obtain ⟨a, htx⟩ := valid.signed tx (by rw [hsplit]; simp)
    have hstep := executeTransaction_step htx fuel ws
    rw [hfail] at hstep
    -- the failing transaction keeps every nonce, so the ones before it must have kept them too
    have hnil : pre = [] := by
      refine eq_nil_of_getNonce_eq (P := P) ?_ ?_ hpre fun b => ?_
      · exact fun t ht => valid.signed t (by rw [hsplit]; exact List.mem_append_left _ ht)
      · have hcount := congrArg List.length hsplit
        rw [List.length_append] at hcount
        omega
      · rw [← hstep.getNonce_stop (by simp) b, hsame]
    subst hnil
    obtain rfl : bc.worldState = ws := (Prod.mk.inj hpre).2
    exact ⟨rfl, by rw [← hstep.state_of_err, hsame]⟩
  · intro hfirst fuel e bc' hcall
    cases AddStep.of_call hcall with
    | invalid _ _ => exact ⟨rfl, rfl, rfl, rfl⟩
    | @aborted _ c' h ws' valid executed _ =>
      obtain ⟨pre, tx, post, ws, hsplit, hpre, hfail⟩ :=
        (Act.forEach_stop (by simp)).mp executed
      obtain ⟨rfl, hrun⟩ := hfirst h c' valid fuel pre tx post ws e ws' hsplit hpre hfail
      obtain rfl : bc.worldState = ws := (Prod.mk.inj hpre).2
      obtain ⟨a, htx⟩ := valid.signed tx (by rw [hsplit]; simp)
      have hstep := executeTransaction_step htx fuel bc.worldState
      rw [hfail] at hstep
      exact ⟨hstep.state_of_err.trans hrun, rfl, rfl, rfl⟩
    | @appended _ h _ _ _ _ valid _ _ put =>
      -- the store does not refuse a block that has a header
      rw [MemoryStore.put_apply valid.header] at put
      exact absurd (Prod.mk.inj put).1 (by simp)

/-! ### A refused block that leaves its mark -/

/-- The sender has no funds: the first transaction moves nothing and succeeds, the second one
cannot be paid. -/
def halfBlock : Block :=
  sampleBlock sampleGenesis [sampleTransfer 0 0, sampleTransfer 9 1] (sampleAddress 1)

/-- The criterion at the fresh chain and this block. -/
theorem addBlock_untouched_iff_halfBlock :
    halfBlock.transactions.length < 2 ^ 63 ∧
    ((∀ fuel e bc', addBlock .sample fuel halfBlock sampleChain = (.err e, bc') →
        Untouched sampleChain bc') ↔ OnlyFirstFails .sample sampleChain halfBlock) :=
  ⟨by decide, addBlock_untouched_iff sampleChain halfBlock (by decide)⟩

/-- **A refused block is half applied.** The call returns the error of the second transaction, and
the nonce that the first one has raised stays. -/
theorem addBlock_keeps_nonce_of_refused :
    (addBlock .sample 1 halfBlock sampleChain).1 =
        .err (.transferFailed
          (.insufficientBalance (sampleKey.key.publicKey.address .sample) 0 9)) ∧
      sampleChain.worldState.getNonce (sampleKey.key.publicKey.address .sample) = 0 ∧
      (addBlock .sample 1 halfBlock sampleChain).2.worldState.getNonce
        (sampleKey.key.publicKey.address .sample) = 1 := by
  decide +kernel

end Blockchain

end Blockz
