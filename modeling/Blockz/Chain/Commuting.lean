import Blockz.Chain.Execution
import Blockz.Crypto.Instance
import Blockz.Framework.Footprint

/-!
# Independent transactions commute

A transaction reads and writes the accounts of its sender and of its receiver and no others. Its
code sees the storage of the receiver through `SLOAD`, and nothing else of the world state; the
transfer and the nonce concern the two accounts. So `executeTransaction` is local to these two
addresses (`executeTransaction_local`), and two transactions with four different addresses, or
rather with disjoint pairs of them, can be executed in either order (`executeTransaction_commute`).

The argument about the code is one about two runs: on machines that differ in their world states but
not in the account of the contract, every instruction has the same outcome (`EVM.run_respects`).
-/

namespace Blockz

open Effect

/-! ### The world state by accounts -/

namespace WorldState

variable {ws ws' : WorldState} {K : Set Address} {a : Address}

theorem ext_getAccount (haccounts : ∀ a, ws.getAccount a = ws'.getAccount a)
    (hcode : ws.contractCode = ws'.contractCode) : ws = ws' := by
  obtain ⟨accounts, code⟩ := ws
  obtain ⟨accounts', code'⟩ := ws'
  obtain rfl : accounts = accounts' := Finmap.ext_lookup haccounts
  obtain rfl : code = code' := hcode
  rfl

theorem account_congr (h : ws.getAccount a = ws'.getAccount a) : ws.account a = ws'.account a := by
  unfold account
  rw [show ws.accounts.lookup a = ws'.accounts.lookup a from h]

theorem agreeOn_updateAccount (h : AgreeOn getAccount K ws ws') (ha : a ∈ K)
    (f : Account → Account) :
    AgreeOn getAccount K (ws.updateAccount a f) (ws'.updateAccount a f) := by
  intro b hb
  show (ws.updateAccount a f).accounts.lookup b = (ws'.updateAccount a f).accounts.lookup b
  rw [lookup_updateAccount, lookup_updateAccount, account_congr (h a ha)]
  split
  · rfl
  · exact h b hb

theorem sameOutside_updateAccount (ha : a ∈ K) (f : Account → Account) :
    SameOutside getAccount K ws (ws.updateAccount a f) := by
  intro b hb
  show (ws.updateAccount a f).accounts.lookup b = _
  have hne : b ≠ a := fun hba => hb (hba ▸ ha)
  rw [lookup_updateAccount, if_neg hne]
  rfl

/-- The functions that look an account up and write it are local to it. -/
theorem updateAccount_local (ha : a ∈ K) (f : Account → Account) :
    LocalTo getAccount K
      (Act.modify fun ws => ws.updateAccount a f : Act WorldState Err Unit) where
  reads := .modify fun _ _ h => agreeOn_updateAccount h ha f
  writes _ := sameOutside_updateAccount ha f

/-- A transfer is local to its two ends: the checks read the sender's account. -/
theorem transfer_local {src dst : Address} (hsrc : src ∈ K) (hdst : dst ∈ K) (value : UInt64) :
    LocalTo getAccount K (transfer src dst value) := by
  constructor
  · intro ws ws' h
    have hlookup : ws.accounts.lookup src = ws'.accounts.lookup src := h src hsrc
    unfold transfer
    rw [hlookup]
    split
    · exact ⟨rfl, h⟩
    · cases ws'.accounts.lookup src with
      | none => exact ⟨rfl, h⟩
      | some acc =>
        by_cases hlt : acc.balance < value
        · simp only [if_pos hlt]
          exact ⟨trivial, h⟩
        · simp only [if_neg hlt]
          exact ⟨trivial, agreeOn_updateAccount (agreeOn_updateAccount h hsrc _) hdst _⟩
  · intro ws
    rcases transfer_cases src dst value ws with ⟨e, he⟩ | ⟨hok, -, -⟩
    · rw [he]
      exact refl_of (SameOutside getAccount K) ws
    · rw [hok]
      exact trans_of (SameOutside getAccount K) (sameOutside_updateAccount hsrc _)
        (sameOutside_updateAccount hdst _)

end WorldState

/-! ### The code -/

namespace EVM

variable {P : Primitives} {evm evm' : EVM} {contract : Address}

/-- Two machines of one contract that differ at most in their world states, and not in the account
of the contract. -/
def SameContract (contract : Address) (evm evm' : EVM) : Prop :=
  ∃ ws, evm' = { evm with state := ws } ∧ evm.contract = contract ∧
    evm.state.getAccount contract = ws.getAccount contract

theorem SameContract.load_eq (h : SameContract contract evm evm') (keyHash : Hash) :
    evm.load keyHash = evm'.load keyHash := by
  obtain ⟨ws, rfl, rfl, hacc⟩ := h
  have hlookup : evm.state.accounts.lookup evm.contract = ws.accounts.lookup evm.contract := hacc
  unfold load WorldState.getAccountState
  simp only [hlookup]

/-- What does not look at the world state cannot tell the two apart. -/
theorem respects_of_scratch {α : Type} {m : Act EVM Err α}
    (hm : ∀ evm ws, m { evm with state := ws } =
      ((m evm).1, { (m evm).2 with state := ws }))
    (hstate : ∀ evm, (m evm).2.state = evm.state ∧ (m evm).2.contract = evm.contract) :
    Act.Respects (SameContract contract) m := by
  rintro evm _ ⟨ws, rfl, hcontract, hacc⟩
  obtain ⟨hws, hsame⟩ := hstate evm
  have hcall := hm evm ws
  refine ⟨by rw [hcall], ws, by rw [hcall], hsame.trans hcontract, ?_⟩
  rw [hws]
  exact hacc

theorem respects_rules : Rules P (Act.Respects (SameContract contract)) where
  pure := .pure
  fail _ := .lift _
  bind := .bind
  storageKey _ := .lift _
  load keyHash _ hf := .read (fun _ _ h => h.load_eq keyHash) hf
  value hf := .read (fun _ _ ⟨_, h, _, _⟩ => by rw [h]) hf
  callData hf := .read (fun _ _ ⟨_, h, _, _⟩ => by rw [h]) hf
  pop := respects_of_scratch (fun _ _ => rfl) fun _ => ⟨rfl, rfl⟩
  push _ := respects_of_scratch (fun _ _ => rfl) fun _ => ⟨rfl, rfl⟩
  memoryGet _ _ := respects_of_scratch (fun _ _ => rfl) fun _ => ⟨rfl, rfl⟩
  memorySet _ _ _ := respects_of_scratch (fun _ _ => rfl) fun _ => ⟨rfl, rfl⟩
  memorySet32 _ _ := respects_of_scratch (fun _ _ => rfl) fun _ => ⟨rfl, rfl⟩
  retData _ := respects_of_scratch (fun _ _ => rfl) fun _ => ⟨rfl, rfl⟩
  jumpTo _ := .ite (fun _ _ ⟨_, h, _, _⟩ => by rw [h]; exact Iff.rfl)
    (respects_of_scratch (fun _ _ => rfl) fun _ => ⟨rfl, rfl⟩) (.lift _)
  pushOperand _ := .ite (fun _ _ ⟨_, h, _, _⟩ => by rw [h]) (.lift _)
    (respects_of_scratch (fun _ _ => rfl) fun _ => ⟨rfl, rfl⟩)
  dupWord _ := .ite (fun _ _ ⟨_, h, _, _⟩ => by rw [h]) (.lift _)
    (respects_of_scratch (fun _ _ => rfl) fun _ => ⟨rfl, rfl⟩)
  swapWord _ := .ite (fun _ _ ⟨_, h, _, _⟩ => by rw [h]) (.lift _)
    (respects_of_scratch (fun _ _ => rfl) fun _ => ⟨rfl, rfl⟩)

/-- A storage write on both machines writes the same account into both. -/
theorem store_respects (keyHash : Hash) (bytes : List UInt8) :
    Act.Respects (SameContract contract) (Act.modify fun evm =>
      { evm with state := evm.state.setAccountState evm.contract keyHash bytes } :
        Act EVM Err Unit) := by
  refine .modify ?_
  rintro evm _ ⟨ws, rfl, rfl, hacc⟩
  have hagree : AgreeOn WorldState.getAccount {evm.contract} evm.state ws := by
    rintro a rfl
    exact hacc
  exact ⟨_, rfl, rfl, WorldState.agreeOn_updateAccount hagree rfl _ _ rfl⟩

/-- What `step` does with the instruction that it has read. -/
def perform (P : Primitives) (op : OpCode) : Act EVM Err (Option (List UInt8)) :=
  consumeGas 1 >>= fun _ =>
    (Act.modify fun evm => { evm with pc := evm.pc + 1 }) >>= fun _ => exec P op

theorem step_eq_perform : step P = Act.get >>= fun evm =>
    perform P (OpCode.ofByte (evm.code.getD evm.pc.toNat 0)) := rfl

theorem step_respects : Act.Respects (SameContract contract) (step P) := by
  rw [step_eq_perform]
  refine .read (f := perform P) ?_ ?_
  · rintro evm _ ⟨ws, rfl, -, -⟩
    rfl
  · intro op
    have hgas : Act.Respects (SameContract contract) (consumeGas 1) :=
      .ite (fun _ _ ⟨_, h, _, _⟩ => by rw [h])
        (respects_of_scratch (fun _ _ => rfl) fun _ => ⟨rfl, rfl⟩)
        (respects_of_scratch (fun _ _ => rfl) fun _ => ⟨rfl, rfl⟩)
    have hpc : Act.Respects (SameContract contract)
        (Act.modify fun evm => { evm with pc := evm.pc + 1 } : Act EVM Err Unit) :=
      respects_of_scratch (fun _ _ => rfl) fun _ => ⟨rfl, rfl⟩
    exact hgas.bind fun _ => hpc.bind fun _ => respects_rules.execAll store_respects op

/-- **Two runs of one program.** The outcome depends on the account of the contract alone. -/
theorem run_respects (contract : Address) (fuel : ℕ) :
    Act.Respects (SameContract contract) (run P fuel) := by
  induction fuel with
  | zero => exact fun _ _ h => ⟨rfl, h⟩
  | succ fuel ih =>
    unfold run
    refine .ite ?_ ?_ (respects_of_scratch (fun _ _ => rfl) fun _ => ⟨rfl, rfl⟩)
    · rintro _ _ ⟨_, h, _, _⟩
      rw [h]
    · refine step_respects.bind fun next => ?_
      cases next with
      | none => exact ih
      | some data => exact .pure data

end EVM

/-! ### Transactions -/

variable {P : Primitives} {a : Address}

/-- The code of a transaction is local to the receiver. -/
theorem runContract_local (fuel : ℕ) (tx : Transaction) :
    LocalTo WorldState.getAccount {tx.toAddr} (runContract P fuel tx) := by
  constructor
  · unfold runContract
    split
    · refine (Act.Respects.lift _).bind fun fromAddr => Act.Respects.bind ?_ fun _ => .pure _
      refine (EVM.run_respects tx.toAddr fuel).on ?_ ?_
      · exact fun ws ws' h => ⟨ws', rfl, rfl, h tx.toAddr rfl⟩
      · rintro _ _ evm _ - ⟨ws, rfl, -, hacc⟩ b rfl
        exact hacc
    · exact .pure _
  · intro ws b hb
    refine (runContract_writes fuel tx ws).keeps (fun ws => ws.getAccount b) fun ws key bytes => ?_
    exact WorldState.sameOutside_updateAccount (K := {tx.toAddr}) rfl _ b hb

/-- **The footprint of a transaction**: the accounts of its sender and of its receiver. -/
theorem executeTransaction_local (fuel : ℕ) {tx : Transaction} (htx : tx.SignedBy P a) :
    LocalTo WorldState.getAccount {a, tx.toAddr} (executeTransaction P fuel tx) := by
  have hfrom := Transaction.address_of_sender htx.sender
  have hrun : LocalTo WorldState.getAccount {a, tx.toAddr} (runContract P fuel tx) :=
    (runContract_local fuel tx).mono (Set.subset_insert a {tx.toAddr})
  have htransfer : LocalTo WorldState.getAccount {a, tx.toAddr} (transferValue P tx) := by
    unfold transferValue
    split
    · rw [hfrom]
      have hlocal := WorldState.transfer_local (Set.mem_insert a {tx.toAddr})
        (Set.mem_insert_of_mem a rfl) tx.value
      exact hlocal.mapErr _
    · exact LocalTo.lift _
  have hnonce : LocalTo WorldState.getAccount {a, tx.toAddr} (bumpNonce P tx) := by
    unfold bumpNonce
    rw [if_pos htx.signed, hfrom]
    exact WorldState.updateAccount_local (Set.mem_insert a {tx.toAddr}) _
  exact hrun.bind fun _ => htransfer.bind fun _ => hnonce

theorem ExecStep.contractCode_eq {fuel : ℕ} {tx : Transaction} {ws ws' : WorldState}
    {o : Outcome Err Unit} (h : ExecStep P fuel tx a ws o ws') :
    ws'.contractCode = ws.contractCode := by
  have hrun : ∀ {o : Outcome Err Unit} {ws₁ : WorldState},
      runContract P fuel tx ws = (o, ws₁) → ws₁.contractCode = ws.contractCode := fun run =>
    (ExecStep.writes_of_run run).keeps WorldState.contractCode fun _ _ _ => rfl
  cases h with
  | halted run _ => exact hrun run
  | refused run _ => exact hrun run
  | paid run _ => exact (hrun run :)
  | unpaid run _ => exact (hrun run :)

/-- **Independent transactions commute.** If no address of the one is an address of the other, and
they succeed in one order, they succeed in the other order and lead to the same world state. -/
theorem executeTransaction_commute {t₁ t₂ : Transaction} {a₁ a₂ : Address}
    (h₁ : t₁.SignedBy P a₁) (h₂ : t₂.SignedBy P a₂)
    (hdisj : Disjoint ({a₁, t₁.toAddr} : Set Address) {a₂, t₂.toAddr}) {fuel₁ fuel₂ : ℕ}
    {ws ws₁ ws₂ : WorldState} (hfirst : executeTransaction P fuel₁ t₁ ws = (.ok (), ws₁))
    (hsecond : executeTransaction P fuel₂ t₂ ws₁ = (.ok (), ws₂)) :
    ∃ ws₁', executeTransaction P fuel₂ t₂ ws = (.ok (), ws₁') ∧
      executeTransaction P fuel₁ t₁ ws₁' = (.ok (), ws₂) := by
  obtain ⟨ws₁', ws₂', hfirst', hsecond', hview⟩ := (executeTransaction_local fuel₁ h₁).commute
    (executeTransaction_local fuel₂ h₂) hdisj hfirst hsecond
  -- no transaction writes the table of contract code
  have hkeeps : ∀ {fuel : ℕ} {tx : Transaction} {b : Address} {v v' : WorldState},
      tx.SignedBy P b → executeTransaction P fuel tx v = (.ok (), v') →
        v'.contractCode = v.contractCode := by
    intro fuel tx b v v' htx hcall
    have hstep := executeTransaction_step htx fuel v
    rw [hcall] at hstep
    exact hstep.contractCode_eq
  have hcode : ws₂'.contractCode = ws₂.contractCode := by
    rw [hkeeps h₁ hsecond', hkeeps h₂ hfirst', hkeeps h₂ hsecond, hkeeps h₁ hfirst]
  obtain rfl : ws₂' = ws₂ := WorldState.ext_getAccount hview hcode
  exact ⟨ws₁', hfirst', hsecond'⟩

/-! ### A concrete pair -/

/-- `PUSH1 value; PUSH1 1; SSTORE`, sent to the contract at `n` by a key of its own. -/
def storingCall (n value : UInt8) : Transaction where
  data := [0x60, value, 0x60, 0x01, 0x55]
  toAddr := sampleAddress n
  value := 0
  nonce := 0
  gasLimit := 3
  gasPrice := 0
  fromKey := ⟨some ⟨n.toNat, 0⟩⟩
  signature := some ⟨some 0, some 0⟩

theorem executeTransaction_commute_storingCall :
    ∃ ws₁ ws₂ ws₁', executeTransaction .sample 4 (storingCall 1 7) WorldState.new = (.ok (), ws₁) ∧
      executeTransaction .sample 4 (storingCall 2 9) ws₁ = (.ok (), ws₂) ∧
      executeTransaction .sample 4 (storingCall 2 9) WorldState.new = (.ok (), ws₁') ∧
      executeTransaction .sample 4 (storingCall 1 7) ws₁' = (.ok (), ws₂) := by
  have hfirst := Act.eq_mk_of_fst (m := executeTransaction .sample 4 (storingCall 1 7))
    (s := WorldState.new) (o := .ok ()) (by decide +kernel)
  have hsecond := Act.eq_mk_of_fst (m := executeTransaction .sample 4 (storingCall 2 9))
    (s := (executeTransaction .sample 4 (storingCall 1 7) WorldState.new).2) (o := .ok ())
    (by decide +kernel)
  have hdisj : Disjoint ({EcdsaPublicKey.address .sample ⟨1, 0⟩, sampleAddress 1} : Set Address)
      {EcdsaPublicKey.address .sample ⟨2, 0⟩, sampleAddress 2} := by
    rw [Set.disjoint_left]
    rintro a (rfl | rfl) (h | h) <;> exact absurd h (by decide +kernel)
  obtain ⟨ws₁', hswapped, hrest⟩ :=
    executeTransaction_commute ⟨rfl, rfl⟩ ⟨rfl, rfl⟩ hdisj hfirst hsecond
  exact ⟨_, _, ws₁', hfirst, hsecond, hswapped, hrest⟩

end Blockz
