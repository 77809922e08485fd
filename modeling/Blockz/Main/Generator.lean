import Blockz.Core.VMLogic
import Blockz.Chain.Proposal
import Blockz.Chain.Tame
import Blockz.Network.Agreement

/-!
# The transaction generator

`sendTestTransaction` and `sampleContract` of `main.go`. In development mode a transaction is sent
to a node every two seconds, each of them signed with a new key. They all carry one program and go
to one address, the zero address, and so they share its storage.

The program is verified by the rules of `VMLogic`, one stretch after the other: it stores 5, loads
it again and returns it. This works out in every world state, as what is loaded was stored by the
program itself. The transactions transfer nothing, so no balance is needed either.

* `EVM.run_sampleContract` — what the program returns, what it writes and what it costs.
* `TestTransaction` — a transaction as the generator makes it, before or after the network.
* `TestTransaction.executeTransaction_eq` — its effect on a world state.
* `test_transactions_execute` — the effect of any number of them, as a node decodes them from the
  messages of the generator.
-/

namespace Blockz

open Effect

/-- `sampleContract`. -/
def sampleContract : List UInt8 :=
  [ 0x60, 0x05, -- PUSH1 5
    0x60, 0x00, -- PUSH1 0
    0x55,       -- SSTORE
    0x60, 0x00, -- PUSH1 0
    0x54,       -- SLOAD
    0x60, 0x00, -- PUSH1 0
    0x52,       -- MSTORE
    0x60, 0x20, -- PUSH1 32
    0x60, 0x00, -- PUSH1 0
    0xf3 ]      -- RETURN

namespace EVM

variable {P : Primitives} {a : Address} {limit : UInt64}

variable {stack : List ℕ} {memory : Memory} {ws : WorldState}

/-- Ten instructions are paid for, so there is gas for each of them. -/
theorem ready_sampleContract (hlimit : 10 ≤ limit.toNat) {pc gas : ℕ} {op : OpCode}
    (hpc : pc < 16) (hgas : gas < 10) (hop : OpCode.ofByte (sampleContract.getD pc 0) = op) :
    Point.Ready sampleContract limit ⟨pc, gas, stack, memory, ws⟩ op :=
  ⟨hpc, by decide, hgas.trans_le hlimit, hop⟩

theorem push_sampleContract (hlimit : 10 ≤ limit.toNat) (pc gas v : ℕ) (hpc : pc + 2 < 16)
    (hgas : gas < 10) (hop : OpCode.ofByte (sampleContract.getD pc 0) = .push 1)
    (hv : Bytes.toNat ((sampleContract.drop (pc + 1)).take 1) = v) :
    Triple (Continued P) (At sampleContract a limit ⟨pc, gas, stack, memory, ws⟩) 1
      (At sampleContract a limit ⟨pc + 2, gas + 1, v :: stack, memory, ws⟩) := by
  subst hv
  exact push_rule (ready_sampleContract hlimit (by omega) hgas hop) (by decide) hpc.le

/-- The contract stores 5 under the key 0. -/
theorem sampleContract_stores (hlimit : 10 ≤ limit.toNat) (ws : WorldState) :
    Triple (Continued P) (At sampleContract a limit ⟨0, 0, [], ⟨[]⟩, ws⟩) 3
      (At sampleContract a limit ⟨5, 3, [], ⟨[]⟩,
        ws.setAccountState a (wordKey P 0) (storedBytes 5)⟩) := by
  refine Triple.seq (m := 2) (n := 1) ?_
    (sstore_rule (ready_sampleContract hlimit (by decide) (by decide) rfl) rfl (by simp))
  exact (push_sampleContract hlimit 0 0 5 (by decide) (by decide) rfl (by decide)).seq
    (push_sampleContract hlimit 2 1 0 (by decide) (by decide) rfl (by decide))

/-- It reads the value back. -/
theorem sampleContract_loads (hlimit : 10 ≤ limit.toNat)
    (hstored : ws.stateAt a (wordKey P 0) = some (storedBytes 5)) :
    Triple (Continued P) (At sampleContract a limit ⟨5, 3, [], memory, ws⟩) 2
      (At sampleContract a limit ⟨8, 5, [5], memory, ws⟩) := by
  refine (push_sampleContract hlimit 5 3 0 (by decide) (by decide) rfl (by decide)).seq (n := 1) ?_
  exact sload_rule (ready_sampleContract hlimit (by decide) (by decide) rfl) rfl (by simp)
    (by norm_num) hstored

/-- It puts it into the memory, and prepares to return it. -/
theorem sampleContract_writes (hlimit : 10 ≤ limit.toNat) :
    Triple (Continued P) (At sampleContract a limit ⟨8, 5, [5], ⟨[]⟩, ws⟩) 4
      (At sampleContract a limit ⟨15, 9, [0, 32], ⟨Bytes.padLeft 32 (Bytes.ofNat 5)⟩, ws⟩) := by
  have hmax := P.le_maxAlloc
  have hbounds : Memory.InBounds P ⟨[]⟩ (UInt64.ofNat 0) 32 := Or.inr ⟨by decide, by
    show (0 + 32 + 31) / 32 * 32 ≤ P.maxAlloc
    omega⟩
  have hwrite : Triple (Continued P) (At sampleContract a limit ⟨10, 6, [0, 5], ⟨[]⟩, ws⟩) 1
      (At sampleContract a limit ⟨11, 7, [], ⟨Bytes.padLeft 32 (Bytes.ofNat 5)⟩, ws⟩) :=
    mstore_rule (ready_sampleContract hlimit (by decide) (by decide) rfl) rfl (by norm_num)
      (Nat.zero_le _) hbounds
  refine (push_sampleContract hlimit 8 5 0 (by decide) (by decide) rfl (by decide)).seq (n := 3) ?_
  refine hwrite.seq (n := 2) ?_
  exact (push_sampleContract hlimit 11 7 32 (by decide) (by decide) rfl (by decide)).seq
    (push_sampleContract hlimit 13 8 0 (by decide) (by decide) rfl (by decide))

/-- **The program runs to its end.** It takes ten instructions, returns 5 as a word, and has written
it under the key 0. -/
theorem run_sampleContract (hlimit : 10 ≤ limit.toNat) (ws : WorldState) (caller : Address)
    (value : ℤ) : ∃ evm', run P 10 (newEVM sampleContract [] ws a caller value limit) =
      (.ok (Bytes.padLeft 32 (Bytes.ofNat 5)), evm') ∧
      evm'.state = ws.setAccountState a (wordKey P 0) (storedBytes 5) ∧
      evm'.gasUsed = 10 := by
  have hstored : (ws.setAccountState a (wordKey P 0) (storedBytes 5)).stateAt a (wordKey P 0) =
      some (storedBytes 5) := by
    rw [WorldState.stateAt_setAccountState, Function.update_self]
  have hnine : Triple (Continued P) (At sampleContract a limit ⟨0, 0, [], ⟨[]⟩, ws⟩) 9
      (At sampleContract a limit ⟨15, 9, [0, 32], ⟨Bytes.padLeft 32 (Bytes.ofNat 5)⟩,
        ws.setAccountState a (wordKey P 0) (storedBytes 5)⟩) :=
    ((sampleContract_stores hlimit ws).seq (sampleContract_loads hlimit hstored)).seq
      (sampleContract_writes hlimit)
  have hstart : At sampleContract a limit ⟨0, 0, [], ⟨[]⟩, ws⟩
      (newEVM sampleContract [] ws a caller value limit) :=
    ⟨rfl, rfl, rfl, rfl, rfl, rfl, rfl, rfl⟩
  have hmax := P.le_maxAlloc
  have hlength : (Bytes.padLeft 32 (Bytes.ofNat 5)).length = 32 := by decide
  obtain ⟨evm', hrun, hstate, hgas⟩ := ret_rule hnine
    (ready_sampleContract hlimit (by decide) (by decide) rfl) rfl
    (show (Bytes.padLeft 32 (Bytes.ofNat 5)).length ≤ P.maxAlloc by omega)
    (Or.inl (show 0 + 32 ≤ (Bytes.padLeft 32 (Bytes.ofNat 5)).length by omega)) hstart
  exact ⟨evm', hrun, hstate, hgas⟩

end EVM

/-! ### The transactions -/

/-- `NewTransaction`. -/
def newTransaction (data : List UInt8) : Transaction where
  data := data
  toAddr := Address.zero
  value := 0
  nonce := 0
  gasLimit := 0
  gasPrice := 0
  fromKey := ⟨none⟩
  signature := none

/-- The transaction of `sendTestTransaction`, signed. -/
def testTransaction (P : Primitives) (privKey : PrivateKey) (rand : ℕ) : Outcome Err Transaction :=
  Transaction.sign P { newTransaction sampleContract with gasLimit := 10000, gasPrice := 1 }
    privKey rand

/-- `sendTestTransaction`, up to the call of `SendMessage`: the bytes that this is given. -/
def sendTestTransaction (P : Primitives) (C : Codecs) (gobId : ℕ) (privKey : PrivateKey)
    (rand : ℕ) : Outcome Err (List (Gob.Frame Message)) := do
  let tx ← testTransaction P privKey rand
  let data ← C.transaction.encode tx
  pure ((newMessage .tx data).bytes gobId)

/-- A transaction of the generator, as it is there or as it was decoded. -/
def TestTransaction (P : Primitives) (tx : Transaction) : Prop :=
  ∃ key rand made, testTransaction P key rand = .ok made ∧ tx.exported = made.exported

namespace TestTransaction

variable {P : Primitives} {C : Codecs} {tx : Transaction}

/-- What a node decodes from the message of the generator. -/
theorem of_sent (hC : C.Faithful) {key : PrivateKey} {rand gobId : ℕ} {sender : NetAddr}
    {payload : List (Gob.Frame Message)}
    (hsent : sendTestTransaction P C gobId key rand = .ok payload)
    (hreceived : defaultRPCDecodeFunc C ⟨sender, payload⟩ = .ok ⟨sender, .transaction tx⟩) :
    TestTransaction P tx := by
  obtain ⟨made, hmade, hrest⟩ := Outcome.bind_eq_ok.mp hsent
  obtain ⟨data, hencode, hpayload⟩ := Outcome.bind_eq_ok.mp hrest
  obtain rfl := Outcome.ok.inj hpayload
  rw [defaultRPCDecodeFunc_newMessage] at hreceived
  obtain ⟨content, hcontent, hmessage⟩ := Outcome.bind_eq_ok.mp hreceived
  obtain ⟨tx', hdecode, hread⟩ := Outcome.bind_eq_ok.mp hcontent
  obtain rfl := Outcome.ok.inj hread
  cases hmessage
  exact ⟨key, rand, made, hmade, hC.transaction hencode hdecode⟩

/-- The fields of such a transaction. -/
theorem fields (h : TestTransaction P tx) : ∃ (key : PrivateKey) (rand : ℕ) (sig : Signature),
    key.sign P sampleContract rand = .ok sig ∧ tx.data = sampleContract ∧
      tx.toAddr = Address.zero ∧ tx.value = 0 ∧ tx.gasLimit = 10000 ∧
      tx.fromKey = key.publicKey ∧ tx.signature = some sig := by
  obtain ⟨key, rand, made, hmade, hexp⟩ := h
  obtain ⟨sig, hsig, hsigned⟩ := Outcome.bind_eq_ok.mp hmade
  obtain rfl := Outcome.ok.inj hsigned
  exact ⟨key, rand, sig, hsig, congrArg Transaction.data hexp, congrArg Transaction.toAddr hexp,
    congrArg Transaction.value hexp, congrArg Transaction.gasLimit hexp,
    congrArg Transaction.fromKey hexp, congrArg Transaction.signature hexp⟩

theorem verify_eq (hP : P.CorrectSignature) (h : TestTransaction P tx) :
    tx.verify P = .ok () := by
  obtain ⟨key, rand, sig, hsign, hdata, -, -, -, hfrom, hsignature⟩ := h.fields
  unfold Transaction.verify
  rw [hsignature, hfrom, hdata]
  show (sig.verify P key.publicKey sampleContract >>= _) = _
  rw [Signature.verify_of_correct hP hsign]
  rfl

theorem signedBy (h : TestTransaction P tx) : ∃ a, tx.SignedBy P a := by
  obtain ⟨key, rand, sig, -, -, -, -, -, hfrom, hsignature⟩ := h.fields
  refine ⟨key.key.publicKey.address P, ?_, ?_⟩
  · rw [hsignature]
    rfl
  · unfold Transaction.sender
    rw [hfrom]
    rfl

/-- The call of the machine. -/
theorem runContract_eq (h : TestTransaction P tx) {fuel : ℕ} (hfuel : 10 ≤ fuel)
    (ws : WorldState) : runContract P fuel tx ws =
      (.ok (), ws.setAccountState Address.zero (EVM.wordKey P 0) (EVM.storedBytes 5)) := by
  obtain ⟨key, rand, sig, -, hdata, hto, hvalue, hgas, hfrom, -⟩ := h.fields
  have hlimit : 10 ≤ (10000 : UInt64).toNat := by decide
  obtain ⟨evm', hrun, hstate, -⟩ := EVM.run_sampleContract (P := P) (a := Address.zero) hlimit ws
    (key.key.publicKey.address P) (0 : UInt64).toNat
  have hlong : EVM.run P fuel (newEVM sampleContract [] ws Address.zero
      (key.key.publicKey.address P) (0 : UInt64).toNat 10000) =
        (.ok (Bytes.padLeft 32 (Bytes.ofNat 5)), evm') := by
    have hend : (EVM.run P 10 (newEVM sampleContract [] ws Address.zero
        (key.key.publicKey.address P) (0 : UInt64).toNat 10000)).1 ≠ .outOfFuel := by
      rw [hrun]
      exact fun hout => nomatch hout
    rw [EVM.run_extends hfuel _ hend, hrun]
  have hfrom' : tx.fromKey.address P = .ok (key.key.publicKey.address P) := by
    rw [hfrom]
    rfl
  unfold runContract
  rw [hdata, hto, hvalue, hgas, hfrom', if_pos (by decide), Act.bind_apply_ok (Act.lift_apply _ _)]
  have hcall : Act.on (fun ws => newEVM sampleContract [] ws Address.zero
      (key.key.publicKey.address P) (0 : UInt64).toNat 10000) (fun evm _ => evm.state)
      (EVM.run P fuel) ws =
        (.ok (Bytes.padLeft 32 (Bytes.ofNat 5)), evm'.state) := by
    rw [Act.on_apply, hlong]
  rw [Act.bind_apply_ok hcall, hstate]
  rfl

/-- **The effect of a transaction of the generator.** -/
theorem executeTransaction_eq (h : TestTransaction P tx) {a : Address} (ha : tx.SignedBy P a)
    {fuel : ℕ} (hfuel : 10 ≤ fuel) (ws : WorldState) : executeTransaction P fuel tx ws =
      (.ok (), (ws.setAccountState Address.zero (EVM.wordKey P 0)
        (EVM.storedBytes 5)).incrementNonce a) := by
  have hzero : ¬ 0 < tx.value := by
    obtain ⟨-, -, -, -, -, -, hvalue, -⟩ := h.fields
    rw [hvalue]
    decide
  have htransfer : ∀ ws, transferValue P tx ws = (.ok (), ws) := by
    intro ws
    unfold transferValue
    rw [if_neg hzero]
    rfl
  unfold executeTransaction
  rw [Act.bind_apply_ok (h.runContract_eq hfuel ws), Act.bind_apply_ok (htransfer _),
    bumpNonce_apply ha]

theorem tame (hP : P.CorrectSignature) (h : TestTransaction P tx) : tx.Tame P := by
  obtain ⟨a, ha⟩ := h.signedBy
  exact ⟨h.verify_eq hP, fun ws => ⟨10, _, h.executeTransaction_eq ha le_rfl ws⟩⟩

/-- What the transaction changes: a word of the zero address and a nonce. -/
theorem effect (ws : WorldState) (a : Address) {ws' : WorldState}
    (hws' : (ws.setAccountState Address.zero (EVM.wordKey P 0)
      (EVM.storedBytes 5)).incrementNonce a = ws') :
    ws'.ledger = ws.ledger ∧ ∀ b key, ws'.stateAt b key =
      if b = Address.zero ∧ key = EVM.wordKey P 0 then some [5] else ws.stateAt b key := by
  subst hws'
  refine ⟨?_, fun b key => ?_⟩
  · rw [ExecStep.ledger_incrementNonce]
    exact WorldState.ledger_updateAccount_of_balance _ fun _ => rfl
  · unfold WorldState.incrementNonce
    rw [WorldState.stateAt_updateAccount]
    case hf => exact fun _ => rfl
    by_cases hb : b = Address.zero
    · subst hb
      rw [WorldState.stateAt_setAccountState, Function.update_apply]
      simp only [true_and]
      rfl
    · unfold WorldState.setAccountState
      rw [WorldState.stateAt_updateAccount_of_ne hb, if_neg fun h => hb h.1]

/-- The effect of any number of them. -/
theorem executeTransactions_eq {txx : List Transaction} (htxx : ∀ tx ∈ txx, TestTransaction P tx)
    (ws : WorldState) : ∃ ws', (∀ fuel ≥ 10, executeTransactions P fuel txx ws = (.ok (), ws')) ∧
      ws'.ledger = ws.ledger ∧ ∀ b key, ws'.stateAt b key =
        if txx ≠ [] ∧ b = Address.zero ∧ key = EVM.wordKey P 0 then some [5]
        else ws.stateAt b key := by
  induction txx generalizing ws with
  | nil => exact ⟨ws, fun _ _ => rfl, rfl, fun b key => (if_neg fun h => h.1 rfl).symm⟩
  | cons tx txx ih =>
    have htx := htxx tx List.mem_cons_self
    obtain ⟨a, ha⟩ := htx.signedBy
    obtain ⟨ws₁, hws₁⟩ : ∃ ws₁, (ws.setAccountState Address.zero (EVM.wordKey P 0)
        (EVM.storedBytes 5)).incrementNonce a = ws₁ := ⟨_, rfl⟩
    obtain ⟨hledger, hstorage⟩ := effect (P := P) ws a hws₁
    obtain ⟨ws', hloop, hledger', hstorage'⟩ :=
      ih (fun tx h => htxx tx (List.mem_cons_of_mem _ h)) ws₁
    refine ⟨ws', fun fuel hfuel => ?_, hledger'.trans hledger, fun b key => ?_⟩
    · have hfirst := htx.executeTransaction_eq ha hfuel ws
      rw [hws₁] at hfirst
      unfold executeTransactions
      rw [Act.forEach_cons, Act.bind_apply_ok hfirst]
      exact hloop fuel hfuel
    · -- the later ones write the same word again
      rw [hstorage', hstorage]
      by_cases hat : b = Address.zero ∧ key = EVM.wordKey P 0
      · rw [if_pos hat, ite_self, if_pos ⟨List.cons_ne_nil tx txx, hat⟩]
      · rw [if_neg fun h => hat h.2, if_neg hat, if_neg fun h => hat h.2]

end TestTransaction

/-- **The transactions of the generator execute.** What nodes decode from messages of the generator,
in any number and order, verifies, and executes in every world state: in the end no balance has
changed, each nonce is higher by the number of transactions that the account has sent, and the one
word of storage that was written is 5. -/
theorem test_transactions_execute {P : Primitives} {C : Codecs} (hC : C.Faithful)
    (hP : P.CorrectSignature) {txx : List Transaction}
    (hsent : ∀ tx ∈ txx, ∃ key rand gobId payload sender,
      sendTestTransaction P C gobId key rand = .ok payload ∧
      defaultRPCDecodeFunc C ⟨sender, payload⟩ = .ok ⟨sender, .transaction tx⟩)
    (ws : WorldState) :
    (∀ tx ∈ txx, tx.verify P = .ok ()) ∧
    ∃ ws', (∀ fuel ≥ 10, executeTransactions P fuel txx ws = (.ok (), ws')) ∧
      ws'.ledger = ws.ledger ∧
      (∀ b, ws'.getNonce b = ws.getNonce b + UInt64.ofNat (sentBy P txx b)) ∧
      ∀ b key, ws'.stateAt b key =
        if txx ≠ [] ∧ b = Address.zero ∧ key = EVM.wordKey P 0 then some [5]
        else ws.stateAt b key := by
  have htest : ∀ tx ∈ txx, TestTransaction P tx := by
    intro tx hmem
    obtain ⟨key, rand, gobId, payload, sender, hpayload, hdecode⟩ := hsent tx hmem
    exact .of_sent hC hpayload hdecode
  obtain ⟨ws', hloop, hledger, hstorage⟩ := TestTransaction.executeTransactions_eq htest ws
  refine ⟨fun tx hmem => (htest tx hmem).verify_eq hP, ws', hloop, hledger, ?_, hstorage⟩
  exact executeTransactions_getNonce (fun tx hmem => (htest tx hmem).signedBy) (hloop 10 le_rfl)

/-- A message of the generator that arrives. -/
theorem exists_sentTransaction {C : Codecs}
    (hround : ∀ tx, C.transaction.RoundTrips Transaction.exported tx) (key : PrivateKey) :
    ∃ tx payload, sendTestTransaction .sample C 0 key 0 = .ok payload ∧
      defaultRPCDecodeFunc C ⟨"A", payload⟩ = .ok ⟨"A", .transaction tx⟩ := by
  obtain ⟨made, hmade⟩ : ∃ made, testTransaction .sample key 0 = .ok made := ⟨_, rfl⟩
  obtain ⟨data, hencode, hdecode⟩ := hround made
  refine ⟨made.exported, (newMessage .tx data).bytes 0, ?_, ?_⟩
  · unfold sendTestTransaction
    rw [hmade, Outcome.bind_ok, hencode]
    rfl
  · rw [defaultRPCDecodeFunc_newMessage]
    show (C.transaction.decode data >>= _) >>= _ = _
    rw [hdecode]
    rfl

/-- The theorem for two messages with different keys. -/
theorem test_transactions_execute_two : ∃ (C : Codecs) (tx tx' : Transaction) (payload payload' : _)
    (ws' : WorldState), sendTestTransaction .sample C 0 sampleKey 0 = .ok payload ∧
      sendTestTransaction .sample C 0 ⟨⟨⟨8, 9⟩, 10⟩⟩ 0 = .ok payload' ∧
      executeTransactions .sample 10 [tx, tx'] WorldState.new = (.ok (), ws') ∧
      ws'.stateAt Address.zero (EVM.wordKey .sample 0) = some [5] := by
  obtain ⟨C, hC, -, htransaction, -⟩ := Codecs.exists_faithful
  obtain ⟨tx, payload, hsent, hreceived⟩ := exists_sentTransaction htransaction sampleKey
  obtain ⟨tx', payload', hsent', hreceived'⟩ :=
    exists_sentTransaction htransaction ⟨⟨⟨8, 9⟩, 10⟩⟩
  have hboth : ∀ t ∈ [tx, tx'], ∃ key rand gobId payload sender,
      sendTestTransaction .sample C gobId key rand = .ok payload ∧
      defaultRPCDecodeFunc C ⟨sender, payload⟩ = .ok ⟨sender, .transaction t⟩ := by
    intro t hmem
    rcases List.mem_cons.mp hmem with rfl | hmem
    · exact ⟨_, _, _, _, _, hsent, hreceived⟩
    · rw [List.mem_singleton.mp hmem]
      exact ⟨_, _, _, _, _, hsent', hreceived'⟩
  obtain ⟨-, ws', hloop, -, -, hstorage⟩ :=
    test_transactions_execute hC sample_idealSignature.correct hboth WorldState.new
  refine ⟨C, tx, tx', payload, payload', ws', hsent, hsent', hloop 10 le_rfl, ?_⟩
  rw [hstorage, if_pos ⟨List.cons_ne_nil _ _, rfl, rfl⟩]

end Blockz
