import Blockz.Core.Blockchain
import Blockz.Core.VMFrame

/-!
# What executing a transaction can do

A transaction that has passed `Verify` carries a signature and a key, and so it has a sender. For
such a transaction `ExecStep` lists the ways in which `executeTransaction` ends: the code stops the
call, the transfer is refused, or the call succeeds and the nonce of the sender goes up by one.

* `executeTransaction_step` — every call is one of these.
* `ExecStep.flow`, `ExecStep.getNonce_ok`, `ExecStep.getNonce_stop` — what a call does to the
  ledger and to the nonces.
* `executeTransactions_flow` — the ledger over the whole loop, wherever it stops: the total is
  kept, and an account loses at most the values of its own transactions.
-/

namespace Blockz

open Effect

variable {P : Primitives}

/-- `tx.From.Address()`, when the key is there. -/
def Transaction.sender (P : Primitives) (tx : Transaction) : Option Address :=
  tx.fromKey.key.map (EcdsaPublicKey.address P)

theorem Transaction.address_of_sender {tx : Transaction} {a : Address}
    (h : tx.sender P = some a) : tx.fromKey.address P = .ok a := by
  obtain ⟨key, hkey, rfl⟩ := Option.map_eq_some_iff.mp h
  exact PublicKey.address_eq_ok.mpr ⟨key, hkey, rfl⟩

/-- A transaction that was signed, and whose sender is `a`. -/
structure Transaction.SignedBy (P : Primitives) (tx : Transaction) (a : Address) : Prop where
  signed : tx.signature.isSome = true
  sender : tx.sender P = some a

theorem Transaction.signedBy_of_verify {tx : Transaction} (h : tx.verify P = .ok ()) :
    ∃ a, tx.SignedBy P a := by
  obtain ⟨sig, key, hsig, hkey, -⟩ := Transaction.verify_eq_ok h
  refine ⟨key.address P, ?_, ?_⟩
  · rw [hsig]
    rfl
  · unfold Transaction.sender
    rw [hkey]
    rfl

/-- The machine that runs the code of a transaction. -/
def Transaction.machine (tx : Transaction) (fromAddr : Address) (ws : WorldState) : EVM :=
  newEVM tx.data [] ws tx.toAddr fromAddr tx.value.toNat tx.gasLimit

theorem runContract_of_sender {tx : Transaction} {fromAddr : Address} (hdata : 0 < tx.data.length)
    (hfrom : tx.fromKey.address P = .ok fromAddr) (fuel : ℕ) (ws : WorldState) :
    runContract P fuel tx ws =
      ((EVM.run P fuel (tx.machine fromAddr ws)).1 >>= fun _ => .ok (),
        (EVM.run P fuel (tx.machine fromAddr ws)).2.state) := by
  unfold runContract
  rw [if_pos hdata, hfrom, Act.bind_apply_ok (Act.lift_apply _ _)]
  rcases hrun : EVM.run P fuel (tx.machine fromAddr ws) with ⟨o, evm⟩
  have hon : Act.on (fun ws => newEVM tx.data [] ws tx.toAddr fromAddr tx.value.toNat tx.gasLimit)
      (fun evm _ => evm.state) (EVM.run P fuel) ws = (o, evm.state) := by
    rw [Act.on_apply]
    exact congrArg (fun r => (r.1, r.2.state)) hrun
  cases o with
  | ok data => rw [Act.bind_apply_ok hon]; rfl
  | err e => rw [Act.bind_apply_err hon]; rfl
  | panic p => rw [Act.bind_apply_panic hon]; rfl
  | outOfFuel => rw [Act.bind_apply_outOfFuel hon]; rfl

theorem runContract_of_empty {tx : Transaction} (hdata : ¬ 0 < tx.data.length) (fuel : ℕ)
    (ws : WorldState) : runContract P fuel tx ws = (.ok (), ws) := by
  unfold runContract
  rw [if_neg hdata]
  rfl

/-- Whatever the code does, it writes into the storage of the receiver alone. -/
theorem runContract_writes (fuel : ℕ) (tx : Transaction) (ws : WorldState) :
    StorageWrites tx.toAddr ws (runContract P fuel tx ws).2 := by
  by_cases hdata : 0 < tx.data.length
  · cases haddr : tx.fromKey.address P with
    | ok a =>
      rw [runContract_of_sender hdata haddr]
      exact (EVM.run_moves (P := P) fuel (tx.machine a ws)).state
    | _ =>
      unfold runContract
      rw [if_pos hdata, haddr]
      exact .refl
  · rw [runContract_of_empty hdata]
    exact .refl

/-! ### One transaction -/

/-- The ways in which `executeTransaction` ends for a transaction signed by `a`. -/
inductive ExecStep (P : Primitives) (fuel : ℕ) (tx : Transaction) (a : Address)
    (ws : WorldState) : Outcome Err Unit → WorldState → Prop
  | halted {o : Outcome Err Unit} {ws' : WorldState} (run : runContract P fuel tx ws = (o, ws'))
      (stop : ∀ u, o ≠ .ok u) : ExecStep P fuel tx a ws o ws'
  | refused {ws' : WorldState} {e : Err} (run : runContract P fuel tx ws = (.ok (), ws'))
      (transfer : WorldState.transfer a tx.toAddr tx.value ws' = (.err e, ws')) :
      ExecStep P fuel tx a ws (.err (.transferFailed e)) ws'
  | paid {ws' : WorldState} (run : runContract P fuel tx ws = (.ok (), ws'))
      (has : tx.value.toNat ≤ (ws'.getBalance a).toNat) :
      ExecStep P fuel tx a ws (.ok ()) ((ws'.debitCredit a tx.toAddr tx.value).incrementNonce a)
  | unpaid {ws' : WorldState} (run : runContract P fuel tx ws = (.ok (), ws'))
      (zero : ¬ 0 < tx.value) : ExecStep P fuel tx a ws (.ok ()) (ws'.incrementNonce a)

theorem bumpNonce_apply {tx : Transaction} {a : Address} (htx : tx.SignedBy P a)
    (ws : WorldState) : bumpNonce P tx ws = (.ok (), ws.incrementNonce a) := by
  unfold bumpNonce
  rw [if_pos htx.signed, Transaction.address_of_sender htx.sender]
  rfl

/-- **Every call of `executeTransaction` is one of the listed steps.** -/
theorem executeTransaction_step {tx : Transaction} {a : Address} (htx : tx.SignedBy P a)
    (fuel : ℕ) (ws : WorldState) :
    ExecStep P fuel tx a ws (executeTransaction P fuel tx ws).1
      (executeTransaction P fuel tx ws).2 := by
  rcases hrun : runContract P fuel tx ws with ⟨o, ws'⟩
  by_cases hok : o = .ok ()
  case neg =>
    have hstop : ∀ u, o ≠ .ok u := fun _ => hok
    have hcall : executeTransaction P fuel tx ws = (o, ws') := Act.bind_apply_stop hrun hstop _
    rw [hcall]
    exact .halted hrun hstop
  case pos =>
    subst hok
    have hcall : executeTransaction P fuel tx ws
        = (transferValue P tx >>= fun _ => bumpNonce P tx) ws' := Act.bind_apply_ok hrun _
    by_cases hvalue : 0 < tx.value
    case neg =>
      have htransfer : transferValue P tx ws' = (.ok (), ws') := by
        unfold transferValue
        rw [if_neg hvalue]
        rfl
      rw [hcall, Act.bind_apply_ok htransfer, bumpNonce_apply htx]
      exact .unpaid hrun hvalue
    case pos =>
      have htransfer : transferValue P tx ws' =
          Act.mapErr .transferFailed (WorldState.transfer a tx.toAddr tx.value) ws' := by
        unfold transferValue
        rw [if_pos hvalue, Transaction.address_of_sender htx.sender]
        rfl
      rcases WorldState.transfer_cases a tx.toAddr tx.value ws' with ⟨e, he⟩ | ⟨hpaid, -, hhas⟩
      · have hfail : transferValue P tx ws' = (.err (.transferFailed e), ws') := by
          rw [htransfer, Act.mapErr, he]
        rw [hcall, Act.bind_apply_err hfail]
        exact .refused hrun he
      · have hpay : transferValue P tx ws' = (.ok (), ws'.debitCredit a tx.toAddr tx.value) := by
          rw [htransfer, Act.mapErr, hpaid]
        rw [hcall, Act.bind_apply_ok hpay, bumpNonce_apply htx]
        exact .paid hrun hhas

namespace ExecStep

variable {fuel : ℕ} {tx : Transaction} {a : Address} {ws ws' : WorldState} {o : Outcome Err Unit}

theorem writes_of_run (run : runContract P fuel tx ws = (o, ws')) :
    StorageWrites tx.toAddr ws ws' := by
  have hwrites := runContract_writes (P := P) fuel tx ws
  rwa [run] at hwrites

theorem ledger_incrementNonce (ws : WorldState) (a : Address) :
    (ws.incrementNonce a).ledger = ws.ledger := by
  unfold WorldState.incrementNonce
  rw [WorldState.ledger_updateAccount_of_balance]
  exact fun _ => rfl

/-- Only the transfer moves value, and it takes it from the sender. -/
theorem flow (h : ExecStep P fuel tx a ws o ws') (hfit : ws.supply < 2 ^ 64) :
    Ledger.Flow ws.ledger ws'.ledger (Finsupp.single a tx.value.toNat) := by
  have hnone : Ledger.Flow ws.ledger ws.ledger (Finsupp.single a tx.value.toNat) :=
    (Ledger.Flow.refl _).mono fun _ => Nat.zero_le _
  cases h with
  | halted run _ =>
    rw [(writes_of_run run).ledger_eq]
    exact hnone
  | refused run _ =>
    rw [(writes_of_run run).ledger_eq]
    exact hnone
  | unpaid run _ =>
    rw [ledger_incrementNonce, (writes_of_run run).ledger_eq]
    exact hnone
  | @paid ws₁ run has =>
    have hledger := (writes_of_run run).ledger_eq
    have hfit₁ : ws₁.supply < 2 ^ 64 := by
      rwa [WorldState.supply_eq_degree, hledger, ← WorldState.supply_eq_degree]
    rw [ledger_incrementNonce, WorldState.ledger_debitCredit ws₁ has hfit₁, ← hledger]
    refine Ledger.Flow.move ?_ tx.toAddr
    rwa [WorldState.ledger_apply]

/-- A call that succeeds raises the nonce of the sender by one, and no other nonce. -/
theorem getNonce_ok (h : ExecStep P fuel tx a ws (.ok ()) ws') (b : Address) :
    ws'.getNonce b = if b = a then ws.getNonce a + 1 else ws.getNonce b := by
  cases h with
  | halted _ stop => exact absurd rfl (stop ())
  | paid run _ =>
    have hnonce := (writes_of_run run).getNonce_eq
    rw [WorldState.getNonce_incrementNonce, WorldState.getNonce_debitCredit,
      WorldState.getNonce_debitCredit, hnonce, hnonce]
  | unpaid run _ =>
    have hnonce := (writes_of_run run).getNonce_eq
    rw [WorldState.getNonce_incrementNonce, hnonce, hnonce]

/-- A call that does not succeed keeps every nonce. -/
theorem getNonce_stop (h : ExecStep P fuel tx a ws o ws') (stop : ∀ u, o ≠ .ok u) (b : Address) :
    ws'.getNonce b = ws.getNonce b := by
  cases h with
  | halted run _ => exact (writes_of_run run).getNonce_eq b
  | refused run _ => exact (writes_of_run run).getNonce_eq b
  | paid _ _ => exact absurd rfl (stop ())
  | unpaid _ _ => exact absurd rfl (stop ())

/-- A call that returns an error has written what its code wrote. -/
theorem state_of_err {e : Err} (h : ExecStep P fuel tx a ws (.err e) ws') :
    ws' = (runContract P fuel tx ws).2 := by
  cases h with
  | halted run _ => rw [run]
  | refused run _ => rw [run]

end ExecStep

/-! ### The loop -/

/-- What the transactions of a list take from `a` altogether. -/
def debits (P : Primitives) : List Transaction → Address → ℕ
  | [], _ => 0
  | tx :: txx, a => (if tx.sender P = some a then tx.value.toNat else 0) + debits P txx a

/-- How many transactions of a list `a` has sent. -/
def sentBy (P : Primitives) : List Transaction → Address → ℕ
  | [], _ => 0
  | tx :: txx, a => (if tx.sender P = some a then 1 else 0) + sentBy P txx a

theorem sentBy_le_length (txx : List Transaction) (a : Address) :
    sentBy P txx a ≤ txx.length := by
  induction txx with
  | nil => exact le_rfl
  | cons tx txx ih =>
    rw [sentBy, List.length_cons]
    split <;> omega

/-- **The nonces over the loop.** A loop that ran to its end has raised each nonce by the number of
transactions that the account has sent. -/
theorem executeTransactions_getNonce {txx : List Transaction}
    (hsigned : ∀ tx ∈ txx, ∃ a, tx.SignedBy P a) {fuel : ℕ} {ws ws' : WorldState}
    (hok : executeTransactions P fuel txx ws = (.ok (), ws')) (b : Address) :
    ws'.getNonce b = ws.getNonce b + UInt64.ofNat (sentBy P txx b) := by
  unfold executeTransactions at hok
  induction txx generalizing ws with
  | nil =>
    obtain rfl : ws = ws' := (Prod.mk.inj hok).2
    exact (UInt64.add_zero _).symm
  | cons tx txx ih =>
    obtain ⟨a, htx⟩ := hsigned tx List.mem_cons_self
    rw [Act.forEach_cons, Act.bind_eq_ok] at hok
    obtain ⟨_, ws₁, hhead, htail⟩ := hok
    have hstep := executeTransaction_step htx fuel ws
    rw [hhead] at hstep
    have hnonce := hstep.getNonce_ok b
    rw [ih (fun t ht => hsigned t (List.mem_cons_of_mem _ ht)) htail, hnonce, sentBy, htx.sender]
    by_cases hb : b = a
    · subst hb
      rw [if_pos rfl, if_pos rfl, UInt64.ofNat_add, ← UInt64.add_assoc]
      rfl
    · have hne : ¬ some a = some b := fun h => hb (Option.some.inj h).symm
      rw [if_neg hb, if_neg hne, Nat.zero_add]

/-- **The ledger over the loop.** Wherever the loop stops, the total is what it was, and nobody
has lost more than the values of their own transactions. -/
theorem executeTransactions_flow {txx : List Transaction}
    (hsigned : ∀ tx ∈ txx, ∃ a, tx.SignedBy P a) (fuel : ℕ) {ws : WorldState}
    (hfit : ws.supply < 2 ^ 64) :
    Ledger.Flow ws.ledger (executeTransactions P fuel txx ws).2.ledger (debits P txx) := by
  induction txx generalizing ws with
  | nil => exact Ledger.Flow.refl _
  | cons tx txx ih =>
    obtain ⟨a, htx⟩ := hsigned tx List.mem_cons_self
    have hhead := (executeTransaction_step htx fuel ws).flow hfit
    rcases hcall : executeTransaction P fuel tx ws with ⟨o, ws₁⟩
    rw [hcall] at hhead
    -- what the head takes is its share of the debits
    have hshare : ∀ b, Finsupp.single a tx.value.toNat b
        = if tx.sender P = some b then tx.value.toNat else 0 := by
      intro b
      rw [htx.sender, Finsupp.single_apply]
      simp only [Option.some.injEq]
    unfold executeTransactions at ih ⊢
    rw [Act.forEach_cons]
    by_cases hok : o = .ok ()
    · subst hok
      have hfit₁ : ws₁.supply < 2 ^ 64 := by
        rwa [WorldState.supply_eq_degree, hhead.total, ← WorldState.supply_eq_degree]
      rw [Act.bind_apply_ok hcall]
      have htail := ih (fun t ht => hsigned t (List.mem_cons_of_mem _ ht)) hfit₁
      refine (hhead.trans htail).mono fun b => ?_
      rw [Pi.add_apply, hshare b, debits]
    · rw [Act.bind_apply_stop hcall fun _ => hok]
      refine hhead.mono fun b => ?_
      rw [hshare b, debits]
      exact Nat.le_add_right _ _

/-- A loop over signed transactions keeps the total. -/
theorem executeTransactions_supply {txx : List Transaction} {fuel : ℕ} {ws ws' : WorldState}
    (hsigned : ∀ tx ∈ txx, ∃ a, tx.SignedBy P a) (hfit : ws.supply < 2 ^ 64)
    {o : Outcome Err Unit} (hcall : executeTransactions P fuel txx ws = (o, ws')) :
    ws'.supply = ws.supply := by
  have hflow := executeTransactions_flow hsigned fuel hfit
  rw [hcall] at hflow
  rw [WorldState.supply_eq_degree, hflow.total, ← WorldState.supply_eq_degree]

end Blockz
