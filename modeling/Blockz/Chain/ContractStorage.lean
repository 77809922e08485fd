import Blockz.Chain.Atomicity
import Blockz.Chain.Commuting
import Blockz.Core.VMStorage

/-!
# What transactions leave in contract storage

The code of a transaction runs against the world state itself, so what it has stored is there when
the next transaction with the same receiver runs, and it is also there when the transaction fails.

* `runContract_view` — what the code leaves in the world state is the replay of what it stored
  (`Transaction.stored`).
* `storage_is_map` — contract storage is a map from words to words, within a run and from one
  transaction to the next one with the same receiver, whatever is done elsewhere in between.
* `failed_transaction_iff` — a transaction that fails leaves the world state as it was exactly when
  the last bytes that it stored under each key are those that stood there before.
* `Blockchain.onlyFirstFails_iff` — the condition for blocks that leave no trace, in these terms.
-/

namespace Blockz

open Effect WriteLog

variable {P : Primitives} {fuel : ℕ} {tx : Transaction} {ws ws' : WorldState} {a : Address}

namespace Transaction

/-- What the code of a transaction stores under which key of the receiver, oldest first. -/
def stored (P : Primitives) (fuel : ℕ) (tx : Transaction) (ws : WorldState) : List (Word × Word) :=
  match tx.sender P with
  | some fromAddr => EVM.stored P fuel (tx.machine fromAddr ws)
  | none => []

end Transaction

/-! ### The code -/

theorem Transaction.sender_cases (P : Primitives) (tx : Transaction) :
    (∃ fromAddr, tx.sender P = some fromAddr ∧ tx.fromKey.address P = .ok fromAddr) ∨
      tx.sender P = none ∧ tx.fromKey.address P = .panic .nilDereference := by
  unfold Transaction.sender PublicKey.address
  cases tx.fromKey.key with
  | none => exact Or.inr ⟨rfl, rfl⟩
  | some key => exact Or.inl ⟨_, rfl, rfl⟩

theorem Transaction.stored_of_sender {fromAddr : Address} (h : tx.sender P = some fromAddr) :
    tx.stored P fuel ws = EVM.stored P fuel (tx.machine fromAddr ws) := by
  unfold Transaction.stored
  rw [h]

/-- A code of no bytes is a run without rounds. -/
theorem Transaction.stored_of_nil (hdata : ¬ 0 < tx.data.length) : tx.stored P fuel ws = [] := by
  rcases tx.sender_cases P with ⟨fromAddr, hsender, -⟩ | ⟨hsender, -⟩
  · have hunfunded : ¬ (tx.machine fromAddr ws).Funded :=
      fun hfunded => hdata (Nat.zero_lt_of_lt hfunded.1)
    rw [stored_of_sender hsender, EVM.stored, EVM.heads_of_not_funded hunfunded]
    rfl
  · unfold Transaction.stored
    rw [hsender]

/-- **What the code leaves** is the replay of what it stored, unless it panics. -/
theorem runContract_view {κ ν : Type} [DecidableEq κ] (view : WorldState → κ → ν)
    (carry : Word × Word → κ × ν)
    (hview : ∀ ws w, view (ws.setAccountState tx.toAddr (EVM.wordKey P w.1.toNat)
      (EVM.storedBytes w.2.toNat)) = Function.update (view ws) (carry w).1 (carry w).2)
    (hrun : ∀ p, (runContract P fuel tx ws).1 ≠ .panic p) :
    view (runContract P fuel tx ws).2 = replay (view ws) ((tx.stored P fuel ws).map carry) := by
  by_cases hdata : 0 < tx.data.length
  · rcases tx.sender_cases P with ⟨fromAddr, hsender, hfrom⟩ | ⟨-, hfrom⟩
    · rw [runContract_of_sender hdata hfrom] at hrun ⊢
      rw [Transaction.stored_of_sender hsender]
      refine EVM.run_view view carry (EVM.newEVM_sound P _ _ _ _ _ _ _) hview fun p hp => ?_
      have hpanic : (EVM.run P fuel (tx.machine fromAddr ws)).1 = .panic p := hp
      apply hrun p
      rw [hpanic]
      rfl
    · -- without a key there is no sender, and `Address` panics
      refine absurd ?_ (hrun .nilDereference)
      unfold runContract
      rw [if_pos hdata, hfrom, Act.bind_apply_panic (Act.lift_apply _ _)]
  · rw [runContract_of_empty hdata, Transaction.stored_of_nil hdata]
    rfl

/-! ### The other parts of a transaction -/

/-- No storage has changed. -/
def SameStorage (ws ws' : WorldState) : Prop := ∀ a key, ws'.stateAt a key = ws.stateAt a key

instance : Std.Refl SameStorage where
  refl _ := fun _ _ => rfl

instance : IsTrans WorldState SameStorage where
  trans _ _ _ h₁ h₂ := fun a key => (h₂ a key).trans (h₁ a key)

theorem sameStorage_addBalance (ws : WorldState) (a : Address) (amount : UInt64) :
    SameStorage ws (ws.addBalance a amount) := by
  intro b key
  apply WorldState.stateAt_updateAccount
  exact fun _ => rfl

theorem sameStorage_incrementNonce (ws : WorldState) (a : Address) :
    SameStorage ws (ws.incrementNonce a) := by
  intro b key
  apply WorldState.stateAt_updateAccount
  exact fun _ => rfl

theorem sameStorage_debitCredit (ws : WorldState) (src dst : Address) (value : UInt64) :
    SameStorage ws (ws.debitCredit src dst value) := by
  refine trans_of SameStorage ?_ (sameStorage_addBalance _ dst value)
  intro b key
  apply WorldState.stateAt_updateAccount
  exact fun _ => rfl

/-- A transfer that is not made writes nothing. -/
theorem transferValue_cases (P : Primitives) (tx : Transaction) (ws : WorldState) :
    (transferValue P tx ws).2 = ws ∨ (transferValue P tx ws).1 = .ok () ∧
      ∃ src, (transferValue P tx ws).2 = ws.debitCredit src tx.toAddr tx.value := by
  unfold transferValue
  split
  · rcases tx.sender_cases P with ⟨src, -, hfrom⟩ | ⟨-, hfrom⟩
    · rw [hfrom, Act.bind_apply_ok (Act.lift_apply _ _), Act.mapErr]
      rcases WorldState.transfer_cases src tx.toAddr tx.value ws with ⟨e, he⟩ | ⟨hok, -, -⟩
      · rw [he]
        exact Or.inl rfl
      · rw [hok]
        exact Or.inr ⟨rfl, src, rfl⟩
    · rw [hfrom, Act.bind_apply_panic (Act.lift_apply _ _)]
      exact Or.inl rfl
  · exact Or.inl rfl

theorem transferValue_sameStorage (tx : Transaction) :
    Act.Moves SameStorage (transferValue P tx) := by
  intro ws
  rcases transferValue_cases P tx ws with hnone | ⟨-, src, hmade⟩
  · rw [hnone]
    exact refl_of SameStorage ws
  · rw [hmade]
    exact sameStorage_debitCredit ws src tx.toAddr tx.value

theorem bumpNonce_sameStorage (tx : Transaction) : Act.Moves SameStorage (bumpNonce P tx) := by
  unfold bumpNonce
  split
  · exact (Act.Moves.lift _).bind fun fromAddr ws => sameStorage_incrementNonce ws fromAddr
  · exact Act.Moves.pure ()

/-- **Storage is what the code leaves**, however the transaction ends. -/
theorem executeTransaction_sameStorage (fuel : ℕ) (tx : Transaction) (ws : WorldState) :
    SameStorage (runContract P fuel tx ws).2 (executeTransaction P fuel tx ws).2 := by
  rcases hrun : runContract P fuel tx ws with ⟨o, ws₁⟩
  by_cases hok : o = .ok ()
  · subst hok
    unfold executeTransaction
    rw [Act.bind_apply_ok hrun]
    exact ((transferValue_sameStorage tx).bind fun _ => bumpNonce_sameStorage tx) ws₁
  · unfold executeTransaction
    rw [Act.bind_snd_stop hrun fun _ => hok]
    exact refl_of SameStorage ws₁

/-- A transaction that returns has not panicked in its code. -/
theorem runContract_of_returns (h : (executeTransaction P fuel tx ws).1.Returns) :
    ∀ p, (runContract P fuel tx ws).1 ≠ .panic p := by
  unfold executeTransaction at h
  rw [Act.returns_bind] at h
  exact (Outcome.returns_iff.mp h.1).1

theorem storage_congr (h : SameStorage ws ws') (a : Address) :
    ws'.storage P a = ws.storage P a := by
  funext k
  unfold WorldState.storage
  rw [h]

/-- The storage of the receiver after a transaction that returned. -/
theorem executeTransaction_storage (hP : P.NoCollisions)
    (h : (executeTransaction P fuel tx ws).1.Returns) :
    (executeTransaction P fuel tx ws).2.storage P tx.toAddr =
      replay (ws.storage P tx.toAddr) (tx.stored P fuel ws) := by
  have hreplay := runContract_view (fun ws => ws.storage P tx.toAddr) id
    (fun ws w => EVM.storage_setAccountState hP ws tx.toAddr w.1 w.2) (runContract_of_returns h)
  rw [List.map_id] at hreplay
  rw [storage_congr (executeTransaction_sameStorage fuel tx ws), hreplay]

/-! ### From one transaction to the next -/

/-- A step of the chain that is not a transaction to `a`: a transaction to another address, or a
reward. -/
inductive StepElsewhere (P : Primitives) (a : Address) (ws : WorldState) : WorldState → Prop
  | transaction (fuel : ℕ) {tx : Transaction} (other : tx.toAddr ≠ a) :
      StepElsewhere P a ws (executeTransaction P fuel tx ws).2
  | reward (coinbase : Address) (amount : UInt64) :
      StepElsewhere P a ws (ws.addBalance coinbase amount)

/-- Any number of such steps. -/
def Elsewhere (P : Primitives) (a : Address) : WorldState → WorldState → Prop :=
  Relation.ReflTransGen (StepElsewhere P a)

/-- The code of a transaction to another address does not reach the storage of `a`. -/
theorem stateAt_runContract (hne : tx.toAddr ≠ a) (key : Hash) :
    (runContract P fuel tx ws).2.stateAt a key = ws.stateAt a key := by
  refine (runContract_writes fuel tx ws).keeps (fun ws => ws.stateAt a key) ?_
  intro ws key' value
  exact WorldState.stateAt_updateAccount_of_ne hne.symm _ ws key

theorem Elsewhere.stateAt_eq (h : Elsewhere P a ws ws') (key : Hash) :
    ws'.stateAt a key = ws.stateAt a key := by
  induction h with
  | refl => rfl
  | @tail ws₁ ws₂ _ hstep ih =>
    rw [← ih]
    cases hstep with
    | transaction fuel other =>
      rw [executeTransaction_sameStorage fuel _ ws₁, stateAt_runContract other]
    | reward coinbase amount => exact sameStorage_addBalance ws₁ coinbase amount a key

theorem Elsewhere.storage_eq (h : Elsewhere P a ws ws') : ws'.storage P a = ws.storage P a := by
  funext k
  unfold WorldState.storage
  rw [h.stateAt_eq]

/-- **What one transaction stores the next one loads.** `first` has stored `v` under a key, and
`second` has the same receiver. An `SLOAD` of the key in `second` pushes `v`, as long as `second`
has not stored under the key itself. -/
def ReadBack (P : Primitives) (first second : Transaction) : Prop :=
  ∀ fuel ws ws₂ fromAddr, (executeTransaction P fuel first ws).1.Returns →
    Elsewhere P first.toAddr (executeTransaction P fuel first ws).2 ws₂ →
    ∀ n head, EVM.run P n (second.machine fromAddr ws₂) = (.outOfFuel, head) → head.Funded →
      head.opcode = .sload → ∀ k v, k = BitVec.ofNat 256 (head.operand 0) →
        last (first.stored P fuel ws) k = some v →
        last (EVM.stored P n (second.machine fromAddr ws₂)) k = none →
          EVM.step P head = (.ok none, { head.paid with
            stack := ⟨v.toNat :: (head.popped 1).stack.data⟩ })

/-- **Contract storage is a map from words to words**, in every run, and from a transaction to the
next one with the same receiver. -/
theorem storage_is_map (hP : P.NoCollisions) :
    (∀ code callData ws contract caller value gasLimit,
      EVM.StorageMap P (newEVM code callData ws contract caller value gasLimit)) ∧
      ∀ first second : Transaction, second.toAddr = first.toAddr → ReadBack P first second := by
  constructor
  · intro code callData ws contract caller value gasLimit
    exact EVM.storageMap hP (EVM.newEVM_sound P code callData ws contract caller value gasLimit)
  · rintro first second hto fuel ws ws₂ fromAddr hreturns hbetween n head hrun hfunded hop _ v rfl
      hfirst hsecond
    have hmap : EVM.StorageMap P (second.machine fromAddr ws₂) :=
      EVM.storageMap hP (EVM.newEVM_sound P _ _ _ _ _ _ _)
    have hheld : ws₂.storage P second.toAddr (BitVec.ofNat 256 (head.operand 0)) = v := by
      rw [hto, hbetween.storage_eq, executeTransaction_storage hP hreturns, replay_apply, hfirst]
      rfl
    have hload := hmap.load n head hrun hfunded hop
    rw [hsecond, Option.getD_none] at hload
    rw [hload]
    show (_, { head.paid with stack := ⟨(ws₂.storage P second.toAddr
      (BitVec.ofNat 256 (head.operand 0))).toNat :: (head.popped 1).stack.data⟩ }) = _
    rw [hheld]

/-- A digest without collisions on 32-byte strings: it is the string itself. -/
def Primitives.transparent : Primitives :=
  { Primitives.sample with
    sha256 := fun bs => if h : bs.length = 32 then ⟨bs, h⟩ else Hash.zero }

theorem transparent_noCollisions : Primitives.transparent.NoCollisions := by
  intro x y hx hy h
  have hdigest : ∀ {bs : List UInt8}, bs.length = 32 →
      (Primitives.transparent.sha256 bs).bytes = bs := by
    intro bs hbs
    show (if h : bs.length = 32 then (⟨bs, h⟩ : Hash) else Hash.zero).bytes = bs
    rw [dif_pos hbs]
  rw [← hdigest hx, h, hdigest hy]

/-- `PUSH1 1; SLOAD`, sent to the same contract as `storingCall`. -/
def loadingCall (n : UInt8) : Transaction :=
  { storingCall n 0 with data := [0x60, 0x01, 0x54] }

/-- The machine of `loadingCall` after `storingCall` has been executed. -/
def loadingMachine : EVM :=
  (loadingCall 1).machine Address.zero
    (executeTransaction .transparent 4 (storingCall 1 7) WorldState.new).2

/-- The word that `storingCall` has stored is the word that `loadingCall` pushes. -/
theorem storage_is_map_loadingCall :
    Primitives.transparent.NoCollisions ∧
      ∃ head, EVM.run .transparent 1 loadingMachine = (.outOfFuel, head) ∧
        EVM.step .transparent head = (.ok none, { head.paid with
          stack := ⟨(7 : Word).toNat :: (head.popped 1).stack.data⟩ }) := by
  have hok : (executeTransaction .transparent 4 (storingCall 1 7) WorldState.new).1 = .ok () := by
    decide +kernel
  have hrun : (EVM.run .transparent 1 loadingMachine).1 = .outOfFuel := by decide +kernel
  obtain ⟨head, hhead, hfunded, hop, hkey⟩ : ∃ head,
      EVM.run .transparent 1 loadingMachine = (.outOfFuel, head) ∧ head.Funded ∧
        head.opcode = .sload ∧ (1 : Word) = BitVec.ofNat 256 (head.operand 0) :=
    ⟨_, Act.eq_mk_of_fst hrun, by decide +kernel, by decide +kernel, by decide +kernel⟩
  have hfirst : last ((storingCall 1 7).stored .transparent 4 WorldState.new) 1 = some 7 := by
    decide +kernel
  have hsecond : last (EVM.stored .transparent 1 loadingMachine) 1 = none := by decide +kernel
  have hback := (storage_is_map transparent_noCollisions).2 (storingCall 1 7) (loadingCall 1) rfl
  exact ⟨transparent_noCollisions, head, hhead, hback 4 WorldState.new _ Address.zero
    (by rw [hok]; trivial) .refl 1 head hhead hfunded hop 1 7 hkey hfirst hsecond⟩

/-! ### Failed transactions -/

/-- Storage writes that leave no entry changed leave nothing changed: the account was there, as the
last entry written shows. -/
theorem StorageWrites.eq_of_stateAt (h : StorageWrites a ws ws')
    (hsame : ws'.stateAt a = ws.stateAt a) : ws' = ws := by
  rcases Relation.ReflTransGen.cases_tail h with rfl | ⟨ws₁, -, key, value, hlast⟩
  · rfl
  have hstorage : (ws'.account a).storage = (ws.account a).storage := by
    apply Finmap.ext_lookup
    intro key
    rw [← WorldState.stateAt_eq, ← WorldState.stateAt_eq, hsame]
  have haccount : ws'.account a = ws.account a := by
    have hfields := h.keeps (fun ws => { ws.account a with storage := ∅ }) fun ws key bytes => by
      unfold WorldState.setAccountState
      rw [WorldState.account_updateAccount, if_pos rfl]
    obtain ⟨hnonce, hbalance, hcode, hroot, -⟩ := Account.mk.inj hfields
    calc ws'.account a
        = ⟨(ws'.account a).nonce, (ws'.account a).balance, (ws'.account a).codeHash,
            (ws'.account a).storageRoot, (ws'.account a).storage⟩ := rfl
      _ = ws.account a := by rw [hnonce, hbalance, hcode, hroot, hstorage]
  have hentry : ws'.stateAt a key = some value := by
    rw [hlast, WorldState.stateAt_setAccountState, Function.update_self]
  apply WorldState.ext_getAccount
  · intro b
    by_cases hb : b = a
    · rw [hb, WorldState.getAccount_of_stateAt hentry,
        WorldState.getAccount_of_stateAt (hsame ▸ hentry), haccount]
    · refine h.keeps (fun ws => ws.getAccount b) fun ws key bytes => ?_
      show (ws.updateAccount a _).accounts.lookup b = _
      rw [WorldState.lookup_updateAccount, if_neg hb]
      rfl
  · exact h.keeps WorldState.contractCode fun _ _ _ => rfl

/-- What stays under a key of the receiver when a word has been stored under a word. -/
def carried (P : Primitives) (w : Word × Word) : Hash × Option (List UInt8) :=
  (EVM.wordKey P w.1.toNat, some (EVM.storedBytes w.2.toNat))

theorem bumpNonce_ne_err (P : Primitives) (tx : Transaction) (ws : WorldState) (e : Err) :
    (bumpNonce P tx ws).1 ≠ .err e := by
  unfold bumpNonce
  split
  · rcases tx.sender_cases P with ⟨fromAddr, -, hfrom⟩ | ⟨-, hfrom⟩
    · rw [hfrom, Act.bind_apply_ok (Act.lift_apply _ _)]
      exact fun h => nomatch h
    · rw [hfrom, Act.bind_apply_panic (Act.lift_apply _ _)]
      exact fun h => nomatch h
  · exact fun h => nomatch h

/-- A transaction that fails has written what its code wrote. -/
theorem executeTransaction_err {e : Err} (h : executeTransaction P fuel tx ws = (.err e, ws')) :
    ws' = (runContract P fuel tx ws).2 := by
  rcases Act.bind_eq_err.mp h with hrun | ⟨_, ws₁, hrun, hrest⟩
  · rw [hrun]
  · -- the code came back, so the transfer failed: the nonce is bumped without an error
    rw [hrun]
    rcases Act.bind_eq_err.mp hrest with htransfer | ⟨_, ws₂, -, hbump⟩
    · rcases transferValue_cases P tx ws₁ with hnone | ⟨hok, -⟩
      · rwa [htransfer] at hnone
      · rw [htransfer] at hok
        cases hok
    · exact absurd (congrArg Prod.fst hbump) (bumpNonce_ne_err P tx ws₂ e)

/-- The last bytes that the code has stored under each key are those that stood there before. -/
def StoresBack (P : Primitives) (fuel : ℕ) (tx : Transaction) (ws : WorldState) : Prop :=
  ∀ key entry, last ((tx.stored P fuel ws).map (carried P)) key = some entry →
    ws.stateAt tx.toAddr key = entry

theorem runContract_unchanged_iff {e : Err} (h : executeTransaction P fuel tx ws = (.err e, ws')) :
    (runContract P fuel tx ws).2 = ws ↔ StoresBack P fuel tx ws := by
  have hreturns : (executeTransaction P fuel tx ws).1.Returns := by
    rw [h]
    trivial
  -- read by its hashed keys, the storage follows the writes whether or not two words share a key
  have hview := runContract_view (fun ws => ws.stateAt tx.toAddr) (carried P)
    (fun ws w => WorldState.stateAt_setAccountState ws tx.toAddr _ _)
    (runContract_of_returns hreturns)
  unfold StoresBack
  rw [← replay_eq_self_iff, ← hview]
  constructor
  · exact fun hsame => congrArg (fun ws => ws.stateAt tx.toAddr) hsame
  · exact fun hsame => (runContract_writes fuel tx ws).eq_of_stateAt hsame

/-- **When a failed transaction has no effect.** -/
theorem failed_transaction_iff {e : Err} (h : executeTransaction P fuel tx ws = (.err e, ws')) :
    ws' = ws ↔ ∀ key entry, last ((tx.stored P fuel ws).map (carried P)) key = some entry →
      ws.stateAt tx.toAddr key = entry := by
  rw [executeTransaction_err h]
  exact runContract_unchanged_iff h

/-- When a refused block leaves no trace, by what the code of its first transaction has stored. -/
theorem Blockchain.onlyFirstFails_iff {E : Type} [ConsensusEngine P E]
    {bc : Blockchain E MemoryStore} {b : Block} :
    bc.OnlyFirstFails P b ↔ ∀ h c', Valid P bc b h c' → ∀ fuel pre tx post ws e ws',
      b.transactions = pre ++ tx :: post →
      executeTransactions P fuel pre bc.worldState = (.ok (), ws) →
      executeTransaction P fuel tx ws = (.err e, ws') →
      pre = [] ∧ StoresBack P fuel tx bc.worldState := by
  refine forall₂_congr fun h c' => forall_congr' fun valid => ?_
  refine forall₄_congr fun fuel pre tx post => forall₃_congr fun ws e ws' => ?_
  refine forall₃_congr fun hsplit hpre hfail => and_congr_right ?_
  -- the first transaction runs on the state of the chain
  rintro rfl
  obtain rfl : bc.worldState = ws := (Prod.mk.inj hpre).2
  exact runContract_unchanged_iff hfail

/-- `PUSH1 9; JUMP` fails before it has stored anything. -/
theorem failed_transaction_iff_jump :
    ∃ ws', executeTransaction .sample 3 { storingCall 1 0 with data := [0x60, 9, 0x56] }
        WorldState.new = (.err (.invalidJump 9), ws') ∧ ws' = WorldState.new := by
  have herr : (executeTransaction .sample 3 { storingCall 1 0 with data := [0x60, 9, 0x56] }
      WorldState.new).1 = .err (.invalidJump 9) := by decide +kernel
  have hnone : Transaction.stored .sample 3 { storingCall 1 0 with data := [0x60, 9, 0x56] }
      WorldState.new = [] := by decide +kernel
  have hcall := Act.eq_mk_of_fst herr
  refine ⟨_, hcall, (failed_transaction_iff hcall).mpr ?_⟩
  intro key entry hlast
  rw [hnone] at hlast
  cases hlast

/-- `PUSH1 7; PUSH1 1; SSTORE; PUSH1 0; PUSH1 0; REVERT`. -/
def revertingCall : Transaction :=
  { storingCall 1 7 with
    data := [0x60, 7, 0x60, 1, 0x55, 0x60, 0, 0x60, 0, 0xfd]
    gasLimit := 10 }

/-- **A reverted transaction stores.** It also creates the account of its receiver. -/
theorem revertingCall_stores :
    (executeTransaction .sample 7 revertingCall WorldState.new).1 = .err (.revert []) ∧
      WorldState.new.getAccount revertingCall.toAddr = none ∧
      (executeTransaction .sample 7 revertingCall WorldState.new).2.stateAt revertingCall.toAddr
        (EVM.wordKey .sample 1) = some [7] ∧
      (executeTransaction .sample 7 revertingCall WorldState.new).2 ≠ WorldState.new := by
  have hstored : (executeTransaction .sample 7 revertingCall WorldState.new).2.stateAt
      revertingCall.toAddr (EVM.wordKey .sample 1) = some [7] := by decide +kernel
  refine ⟨by decide +kernel, by rfl, hstored, fun hsame => ?_⟩
  rw [hsame] at hstored
  cases hstored

end Blockz
