import Blockz.Chain.Supply

/-!
# Nonces and replay

`executeTransaction` raises the nonce of the sender after every transaction. It never reads the
nonce that the transaction carries, and neither does `Verify`: a transaction can be executed as
often as somebody puts it into a block.

* `noncesMatch_iff` — each transaction of an executed block carries the nonce that its account has
  just before it, exactly when the nonces of the block continue those of the world state.
* `no_replay_of_run` — in a run whose accepted blocks all do so, no transaction takes effect twice.
* `addBlock_executes_twice` — a block that contains one transaction twice is accepted.
-/

namespace Blockz

open Effect

variable {P : Primitives}

/-- The nonces of the list continue the nonces `n`, sender by sender. -/
def NonceOrdered (P : Primitives) (n : Address → UInt64) : List Transaction → Prop
  | [] => True
  | tx :: txx => (∀ a, tx.sender P = some a → tx.nonce = n a) ∧
      NonceOrdered P (fun b => if tx.sender P = some b then n b + 1 else n b) txx

/-- Each transaction carries the nonce that its account has when its turn comes. -/
def NoncesMatch (P : Primitives) (fuel : ℕ) (ws : WorldState) (txx : List Transaction) : Prop :=
  ∀ pre tx post a ws', txx = pre ++ tx :: post → tx.sender P = some a →
    executeTransactions P fuel pre ws = (.ok (), ws') → tx.nonce = ws'.getNonce a

/-- **What the code would have to check.** -/
theorem noncesMatch_iff {txx : List Transaction} (hsigned : ∀ tx ∈ txx, ∃ a, tx.SignedBy P a)
    {fuel : ℕ} {ws ws' : WorldState} (hok : executeTransactions P fuel txx ws = (.ok (), ws')) :
    NoncesMatch P fuel ws txx ↔ NonceOrdered P ws.getNonce txx := by
  induction txx generalizing ws with
  | nil =>
    refine ⟨fun _ => trivial, fun _ pre tx post a ws' hsplit => ?_⟩
    exact absurd hsplit (by simp)
  | cons tx txx ih =>
    obtain ⟨a, htx⟩ := hsigned tx List.mem_cons_self
    obtain ⟨_, ws₁, hhead, htail⟩ := Act.bind_eq_ok.mp hok
    have hstep := executeTransaction_step htx fuel ws
    rw [hhead] at hstep
    -- the nonces after the head are the ones that the recursion goes on with
    have hnonce : ws₁.getNonce =
        fun b => if tx.sender P = some b then ws.getNonce b + 1 else ws.getNonce b := by
      funext b
      rw [hstep.getNonce_ok b, htx.sender]
      by_cases hb : b = a
      · subst hb
        rw [if_pos rfl, if_pos rfl]
      · rw [if_neg hb, if_neg fun h => hb (Option.some.inj h).symm]
    have hrest := ih (fun t ht => hsigned t (List.mem_cons_of_mem _ ht)) htail
    rw [NonceOrdered, ← hnonce, ← hrest]
    constructor
    · intro hmatch
      refine ⟨fun c hc => hmatch [] tx txx c ws rfl hc rfl, ?_⟩
      intro pre t post c ws₂ hsplit hc hpre
      refine hmatch (tx :: pre) t post c ws₂ (by rw [hsplit]; rfl) hc ?_
      exact Act.bind_eq_ok.mpr ⟨(), ws₁, hhead, hpre⟩
    · rintro ⟨hfirst, hmatch⟩ pre t post c ws₂ hsplit hc hpre
      cases pre with
      | nil =>
        obtain ⟨rfl, -⟩ := List.cons.inj hsplit
        obtain rfl : ws = ws₂ := (Prod.mk.inj hpre).2
        exact hfirst c hc
      | cons t' pre =>
        obtain ⟨rfl, htailSplit⟩ := List.cons.inj hsplit
        obtain ⟨_, ws₃, hhead', hpreTail⟩ := Act.bind_eq_ok.mp hpre
        obtain rfl : ws₁ = ws₃ := (Prod.mk.inj (hhead.symm.trans hhead')).2
        exact hmatch pre t post c ws₂ htailSplit hc hpreTail

/-- Wherever the loop stops, a nonce has gone up by at most the number of transactions. -/
theorem executeTransactions_getNonce_le {txx : List Transaction}
    (hsigned : ∀ tx ∈ txx, ∃ a, tx.SignedBy P a) (fuel : ℕ) (ws : WorldState) (b : Address) :
    ∃ k ≤ txx.length, (executeTransactions P fuel txx ws).2.getNonce b =
      ws.getNonce b + UInt64.ofNat k := by
  induction txx generalizing ws with
  | nil => exact ⟨0, le_rfl, (UInt64.add_zero _).symm⟩
  | cons tx txx ih =>
    obtain ⟨a, htx⟩ := hsigned tx List.mem_cons_self
    have hstep := executeTransaction_step htx fuel ws
    rcases hcall : executeTransaction P fuel tx ws with ⟨o, ws₁⟩
    rw [hcall] at hstep
    unfold executeTransactions at ih ⊢
    rw [Act.forEach_cons, List.length_cons]
    by_cases hok : o = .ok ()
    · subst hok
      rw [Act.bind_apply_ok hcall]
      obtain ⟨k, hk, hnonce⟩ := ih (fun t ht => hsigned t (List.mem_cons_of_mem _ ht)) ws₁
      rw [hnonce, hstep.getNonce_ok b]
      by_cases hb : b = a
      · subst hb
        refine ⟨1 + k, by omega, ?_⟩
        rw [if_pos rfl, UInt64.ofNat_add, ← UInt64.add_assoc]
        rfl
      · exact ⟨k, by omega, by rw [if_neg hb]⟩
    · rw [Act.bind_apply_stop hcall fun _ => hok]
      refine ⟨0, Nat.zero_le _, ?_⟩
      rw [hstep.getNonce_stop (fun _ => hok) b]
      exact (UInt64.add_zero _).symm

/-! ### The transactions of a run -/

/-- The transactions `L` have used up nonces below `sent`, counted from `n₀`, each of them once. -/
structure Accounted (P : Primitives) (n₀ : Address → UInt64) (sent : Address → ℕ)
    (L : List Transaction) : Prop where
  position : ∀ tx ∈ L, ∃ a k, tx.sender P = some a ∧ k < sent a ∧
    tx.nonce = n₀ a + UInt64.ofNat k
  distinct : L.Pairwise fun t t' => ¬ (t.sender P = t'.sender P ∧ t.nonce = t'.nonce)

namespace Accounted

variable {n₀ : Address → UInt64} {sent sent' : Address → ℕ} {L : List Transaction}

theorem mono (h : Accounted P n₀ sent L) (hle : ∀ a, sent a ≤ sent' a) :
    Accounted P n₀ sent' L := by
  refine ⟨fun tx htx => ?_, h.distinct⟩
  obtain ⟨a, k, hsender, hk, hnonce⟩ := h.position tx htx
  exact ⟨a, k, hsender, hk.trans_le (hle a), hnonce⟩

/-- A transaction with the next nonce of its sender is a new one. -/
theorem snoc (h : Accounted P n₀ sent L) {tx : Transaction} {a : Address}
    (hsender : tx.sender P = some a) (hnonce : tx.nonce = n₀ a + UInt64.ofNat (sent a))
    (hbound : sent a < 2 ^ 64) :
    Accounted P n₀ (fun b => sent b + if tx.sender P = some b then 1 else 0) (L ++ [tx]) := by
  refine ⟨fun t ht => ?_, ?_⟩
  · rcases List.mem_append.mp ht with hold | hnew
    · obtain ⟨c, k, hc, hk, hn⟩ := h.position t hold
      exact ⟨c, k, hc, hk.trans_le (Nat.le_add_right _ _), hn⟩
    · obtain rfl := List.mem_singleton.mp hnew
      refine ⟨a, sent a, hsender, ?_, hnonce⟩
      rw [if_pos hsender]
      exact Nat.lt_succ_self _
  · refine List.pairwise_append.mpr ⟨h.distinct, List.pairwise_singleton _ _, ?_⟩
    rintro t ht t' ht' ⟨hsame, hequal⟩
    obtain rfl := List.mem_singleton.mp ht'
    obtain ⟨c, k, hc, hk, hn⟩ := h.position t ht
    obtain rfl : c = a := Option.some.inj (hc.symm.trans (hsame.trans hsender))
    -- two positions below `2 ^ 64` with one nonce are one position
    rw [hn, hnonce, UInt64.add_right_inj] at hequal
    have hnat := congrArg UInt64.toNat hequal
    rw [UInt64.toNat_ofNat', UInt64.toNat_ofNat'] at hnat
    omega

/-- A block whose nonces continue those used up so far adds only new transactions. -/
theorem block {txx : List Transaction} (h : Accounted P n₀ sent L)
    (hsigned : ∀ tx ∈ txx, ∃ a, tx.SignedBy P a)
    (hordered : NonceOrdered P (fun a => n₀ a + UInt64.ofNat (sent a)) txx)
    (hbound : ∀ a, sent a + txx.length < 2 ^ 64) :
    Accounted P n₀ (fun a => sent a + sentBy P txx a) (L ++ txx) := by
  induction txx generalizing L sent with
  | nil =>
    rw [List.append_nil]
    exact h
  | cons tx txx ih =>
    obtain ⟨a, htx⟩ := hsigned tx List.mem_cons_self
    obtain ⟨hfirst, hrest⟩ := hordered
    have hlen : ∀ b, sent b + (txx.length + 1) < 2 ^ 64 := hbound
    have hhead := h.snoc htx.sender (hfirst a htx.sender) (by have := hlen a; omega)
    have hnext : (fun b => if tx.sender P = some b then n₀ b + UInt64.ofNat (sent b) + 1
          else n₀ b + UInt64.ofNat (sent b)) =
        fun b => n₀ b + UInt64.ofNat (sent b + if tx.sender P = some b then 1 else 0) := by
      funext b
      split
      · rw [UInt64.ofNat_add, ← UInt64.add_assoc]
        rfl
      · rw [Nat.add_zero]
    rw [hnext] at hrest
    have htail := ih hhead (fun t ht => hsigned t (List.mem_cons_of_mem _ ht)) hrest (by
      intro b
      have := hlen b
      split <;> omega)
    rw [List.append_assoc, List.singleton_append] at htail
    refine htail.mono fun b => ?_
    rw [sentBy, Nat.add_assoc]

end Accounted

namespace Blockchain

variable {E S : Type} [ConsensusEngine P E] [Storage P S]

/-- However a call ends, it has raised a nonce by at most the number of transactions. -/
theorem AddStep.getNonce_le {fuel : ℕ} {bc bc' : Blockchain E S} {b : Block}
    {o : Outcome Err Unit} (hstep : AddStep P fuel bc b o bc') (a : Address) :
    ∃ k ≤ b.transactions.length,
      bc'.worldState.getNonce a = bc.worldState.getNonce a + UInt64.ofNat k := by
  -- the reward touches no nonce
  have hminted : ∀ {h : Header} {c' : Option E} {ws : WorldState}, Valid P bc b h c' →
      executeTransactions P fuel b.transactions bc.worldState = (.ok (), ws) →
      ∃ k ≤ b.transactions.length, (ws.addBalance h.coinbase blockReward).getNonce a =
        bc.worldState.getNonce a + UInt64.ofNat k := by
    intro h c' ws valid executed
    have hloop := executeTransactions_getNonce_le valid.signed fuel bc.worldState a
    rw [executed] at hloop
    rwa [WorldState.getNonce_addBalance]
  cases hstep with
  | invalid _ _ => exact ⟨0, Nat.zero_le _, (UInt64.add_zero _).symm⟩
  | aborted valid executed _ =>
    have hloop := executeTransactions_getNonce_le valid.signed fuel bc.worldState a
    rwa [executed] at hloop
  | crashed valid executed _ => exact hminted valid executed
  | appended valid executed _ _ => exact hminted valid executed

/-- An accepted block was valid, its transactions ran, and the nonces count them. -/
theorem getNonce_of_accepted {fuel : ℕ} {bc bc' : Blockchain E S} {b : Block}
    (hok : addBlock P fuel b bc = (.ok (), bc')) :
    (∀ tx ∈ b.transactions, ∃ a, tx.SignedBy P a) ∧
      (∃ ws, executeTransactions P fuel b.transactions bc.worldState = (.ok (), ws)) ∧
      ∀ a, bc'.worldState.getNonce a =
        bc.worldState.getNonce a + UInt64.ofNat (sentBy P b.transactions a) := by
  obtain ⟨h, c', ws, total, s, valid, executed, -, -, rfl⟩ := addBlock_eq_ok hok
  refine ⟨valid.signed, ⟨ws, executed⟩, fun a => ?_⟩
  show (ws.addBalance h.coinbase blockReward).getNonce a = _
  rw [WorldState.getNonce_addBalance, executeTransactions_getNonce valid.signed executed]

/-- A call whose block, if it is accepted, continues the nonces of the world state it finds. -/
def CalledInOrder (P : Primitives) [ConsensusEngine P E] [Storage P S] (bc : Blockchain E S)
    (b : Block) (o : Outcome Err Unit) (bc' : Blockchain E S) : Prop :=
  Called P bc b o bc' ∧ (o = .ok () → NonceOrdered P bc.worldState.getNonce b.transactions)

/-- The transactions of the accepted blocks, oldest first. -/
def acceptedTransactions (es : List (Block × Outcome Err Unit)) : List Transaction :=
  es.flatMap fun e => if e.2 = .ok () then e.1.transactions else []

theorem acceptedTransactions_concat (es : List (Block × Outcome Err Unit)) (b : Block)
    (o : Outcome Err Unit) :
    acceptedTransactions (es ++ [(b, o)]) =
      acceptedTransactions es ++ if o = .ok () then b.transactions else [] := by
  unfold acceptedTransactions
  rw [List.flatMap_append, List.flatMap_singleton]

/-- How many transactions were submitted, in accepted and refused blocks. -/
def submittedCount (es : List (Block × Outcome Err Unit)) : ℕ :=
  (es.map fun e => e.1.transactions.length).sum

theorem accounted_of_run {bc₀ bc : Blockchain E S} {es : List (Block × Outcome Err Unit)}
    (hrun : History (CalledInOrder P) bc₀ es bc) (hcount : submittedCount es < 2 ^ 64) :
    ∃ sent, (∀ a, bc.worldState.getNonce a =
        bc₀.worldState.getNonce a + UInt64.ofNat (sent a)) ∧
      (∀ a, sent a ≤ submittedCount es) ∧
      Accounted P bc₀.worldState.getNonce sent (acceptedTransactions es) := by
  refine hrun.recorded (fun es bc => submittedCount es < 2 ^ 64 → ∃ sent,
    (∀ a, bc.worldState.getNonce a = bc₀.worldState.getNonce a + UInt64.ofNat (sent a)) ∧
      (∀ a, sent a ≤ submittedCount es) ∧
      Accounted P bc₀.worldState.getNonce sent (acceptedTransactions es)) ?_ ?_ hcount
  · intro _
    refine ⟨fun _ => 0, fun a => (UInt64.add_zero _).symm, fun _ => le_rfl, ?_⟩
    exact ⟨fun tx htx => absurd htx (by simp [acceptedTransactions]), List.Pairwise.nil⟩
  · rintro es bc b o bc' - ih ⟨⟨fuel, hcall⟩, horder⟩ hbound
    have hsplit : submittedCount (es ++ [(b, o)]) =
        submittedCount es + b.transactions.length := by
      simp [submittedCount]
    rw [hsplit] at hbound ⊢
    obtain ⟨sent, hnonce, hle, hacc⟩ := ih (by omega)
    by_cases hok : o = .ok ()
    · subst hok
      obtain ⟨hsigned, -, hafter⟩ := getNonce_of_accepted hcall
      have hlist : acceptedTransactions (es ++ [(b, .ok ())]) =
          acceptedTransactions es ++ b.transactions := by
        rw [acceptedTransactions_concat, if_pos rfl]
      have hordered := horder rfl
      rw [show bc.worldState.getNonce = _ from funext hnonce] at hordered
      refine ⟨fun a => sent a + sentBy P b.transactions a, fun a => ?_, fun a => ?_, ?_⟩
      · rw [hafter, hnonce, UInt64.ofNat_add, UInt64.add_assoc]
      · exact Nat.add_le_add (hle a) (sentBy_le_length _ _)
      · rw [hlist]
        refine hacc.block hsigned hordered fun a => ?_
        have := hle a
        omega
    · -- a refused block adds no transaction, but it may have raised nonces
      have hlist : acceptedTransactions (es ++ [(b, o)]) = acceptedTransactions es := by
        rw [acceptedTransactions_concat, if_neg hok, List.append_nil]
      choose k hk hafter using (AddStep.of_call hcall).getNonce_le
      refine ⟨fun a => sent a + k a, fun a => ?_, fun a => ?_, ?_⟩
      · rw [hafter, hnonce, UInt64.ofNat_add, UInt64.add_assoc]
      · exact Nat.add_le_add (hle a) (hk a)
      · rw [hlist]
        exact hacc.mono fun a => Nat.le_add_right _ _

/-- **When replay is prevented.** In a run whose accepted blocks continue the nonces of the world
state, no transaction takes effect twice; and for a block that is accepted next, every transaction
carries the nonce its account has just before it exactly when the block does so too. -/
theorem no_replay_of_run {bc₀ bc : Blockchain E S} {es : List (Block × Outcome Err Unit)}
    (hrun : History (CalledInOrder P) bc₀ es bc) (hcount : submittedCount es < 2 ^ 64) :
    ((acceptedTransactions es).map Transaction.exported).Nodup ∧
      ∀ fuel b bc', addBlock P fuel b bc = (.ok (), bc') →
        (NoncesMatch P fuel bc.worldState b.transactions ↔
          NonceOrdered P bc.worldState.getNonce b.transactions) := by
  refine ⟨?_, fun fuel b bc' hcall => ?_⟩
  · obtain ⟨sent, -, -, hacc⟩ := accounted_of_run hrun hcount
    refine List.pairwise_map.mpr (hacc.distinct.imp fun hne heq => hne ?_)
    have hkey := congrArg Transaction.fromKey heq
    have hnonce := congrArg Transaction.nonce heq
    refine ⟨?_, hnonce⟩
    unfold Transaction.sender
    exact congrArg (fun k : PublicKey => k.key.map (EcdsaPublicKey.address P)) hkey
  · obtain ⟨hsigned, ⟨ws, executed⟩, -⟩ := getNonce_of_accepted hcall
    exact noncesMatch_iff hsigned executed

/-- Two transactions of one sender, in the order of their nonces. -/
def orderedBlock : Block :=
  sampleBlock sampleGenesis [sampleTransfer 9 0, sampleTransfer 9 1] (sampleAddress 1)

theorem getNonce_payingChain (a : Address) : payingChain.worldState.getNonce a = 0 :=
  WorldState.getNonce_addBalance _ _ _ a

/-- A run of that block. -/
theorem no_replay_of_run_orderedBlock :
    (addBlock .sample 1 orderedBlock payingChain).1 = .ok () ∧
      ((acceptedTransactions [(orderedBlock, .ok ())]).map Transaction.exported).Nodup := by
  have hok : (addBlock .sample 1 orderedBlock payingChain).1 = .ok () := by decide +kernel
  have hordered : NonceOrdered .sample payingChain.worldState.getNonce
      orderedBlock.transactions := by
    refine ⟨fun a _ => (getNonce_payingChain a).symm, fun a ha => ?_, trivial⟩
    have hsender : (sampleTransfer 9 0).sender .sample = some a := ha
    change _ = if (sampleTransfer 9 0).sender .sample = some a
      then payingChain.worldState.getNonce a + 1 else payingChain.worldState.getNonce a
    rw [if_pos hsender, getNonce_payingChain]
    rfl
  have hcall : CalledInOrder .sample payingChain orderedBlock (.ok ())
      (addBlock .sample 1 orderedBlock payingChain).2 :=
    ⟨⟨1, Act.eq_mk_of_fst hok⟩, fun _ => hordered⟩
  have hrun : History (CalledInOrder .sample) payingChain [(orderedBlock, .ok ())] _ :=
    .call .start hcall
  exact ⟨hok, (no_replay_of_run hrun (by decide)).1⟩

/-- One signed transaction, twice. -/
def twiceBlock : Block :=
  sampleBlock sampleGenesis [sampleTransfer 9 0, sampleTransfer 9 0] (sampleAddress 1)

/-- **A transaction takes effect twice.** The block is accepted, the second copy finds the nonce 1
and carries 0, and the sender has paid twice. -/
theorem addBlock_executes_twice :
    (addBlock .sample 1 twiceBlock payingChain).1 = .ok () ∧
      (sampleTransfer 9 0).nonce = 0 ∧
      (executeTransactions .sample 1 [sampleTransfer 9 0] payingChain.worldState).2.getNonce
        (sampleKey.key.publicKey.address .sample) = 1 ∧
      payingChain.worldState.getBalance (sampleKey.key.publicKey.address .sample) = 100 ∧
      (addBlock .sample 1 twiceBlock payingChain).2.worldState.getBalance
        (sampleKey.key.publicKey.address .sample) = 82 := by
  decide +kernel

end Blockchain

end Blockz
