import Blockz.Core.VMFrame
import Blockz.Crypto.Instance
import Blockz.Framework.History
import Mathlib.Data.Nat.Digits.Lemmas

/-!
# The instructions of a run

A round of the loop of `EVM.Run` pays one unit of gas and executes one instruction. `EVM.executed`
lists the instructions that a run has paid for, and `EVM.Continued` is a round after which the loop
goes on, so that a history of such rounds leads from one loop head to a later one.

Two things about a run depend on its instructions and not only on its end:

* `run_frame` — the run writes nothing but the storage of its contract, and the account of the
  contract comes into existence with the first `SSTORE`;
* `gasBounded_iff` — the gas limit bounds the number of instructions, unless it is the greatest
  `uint64`. There the sum in `consumeGas` wraps to zero and is never greater than the limit.
-/

namespace Blockz

open Effect

namespace EVM

/-! ### Rounds -/

/-- The instruction at the program counter. -/
def opcode (evm : EVM) : OpCode := OpCode.ofByte (evm.code.getD evm.pc.toNat 0)

/-- The loop is entered, and `consumeGas(1)` returns no error. -/
def Funded (evm : EVM) : Prop :=
  evm.pc.toNat < evm.code.length ∧ evm.gasUsed + 1 ≤ evm.gasLimit

instance (evm : EVM) : Decidable evm.Funded := inferInstanceAs (Decidable (_ ∧ _))

/-- The machine that an instruction finds: the gas is paid, and `pc` is past the opcode. -/
def paid (evm : EVM) : EVM := { evm with gasUsed := evm.gasUsed + 1, pc := evm.pc + 1 }

variable (P : Primitives)

/-- The instructions that are executed within `fuel` visits of the loop head, in their order. -/
def executed : ℕ → EVM → List OpCode
  | 0, _ => []
  | fuel + 1, evm =>
    if evm.Funded then
      evm.opcode ::
        match step P evm with
        | (.ok none, evm') => executed fuel evm'
        | _ => []
    else []

/-- One instruction, after which the loop goes on. -/
def Continued (evm : EVM) (op : OpCode) (o : Outcome Err (Option (List UInt8))) (evm' : EVM) :
    Prop :=
  evm.Funded ∧ evm.opcode = op ∧ o = .ok none ∧ step P evm = (o, evm')

variable {P} {evm evm' : EVM} {fuel : ℕ}

theorem step_of_funded (h : evm.Funded) : step P evm = exec P evm.opcode evm.paid := by
  have hgas : consumeGas 1 evm = (.ok (), { evm with gasUsed := evm.gasUsed + 1 }) := by
    unfold consumeGas
    rw [if_neg (UInt64.not_lt.mpr h.2)]
  unfold step
  rw [Act.get_bind_apply, Act.bind_apply_ok hgas, Act.modify_bind_apply]
  rfl

/-- The loop ends at a head, by its condition or for lack of gas. -/
theorem run_of_unfunded (h : ¬ evm.Funded) :
    run P (fuel + 1) evm =
      (if evm.pc.toNat < evm.code.length then .err (.outOfGas (evm.gasUsed + 1) evm.gasLimit)
        else .ok evm.retData, evm) := by
  unfold run
  by_cases hpc : evm.pc.toNat < evm.code.length
  · have hgas : consumeGas 1 evm =
        (.err (.outOfGas (evm.gasUsed + 1) evm.gasLimit), evm) := by
      unfold consumeGas
      rw [if_pos (UInt64.not_le.mp fun hle => h ⟨hpc, hle⟩)]
    have hstep : step P evm = (.err (.outOfGas (evm.gasUsed + 1) evm.gasLimit), evm) := by
      unfold step
      rw [Act.get_bind_apply, Act.bind_apply_err hgas]
    rw [if_pos hpc, if_pos hpc, Act.bind_apply_err hstep]
  · rw [if_neg hpc, if_neg hpc]

/-- Nothing is written there. -/
theorem run_of_not_funded (P : Primitives) (fuel : ℕ) (h : ¬ evm.Funded) :
    ∃ o, run P (fuel + 1) evm = (o, evm) ∧ o ≠ .outOfFuel := by
  refine ⟨_, run_of_unfunded h, ?_⟩
  split
  · exact fun h => nomatch h
  · exact fun h => nomatch h

theorem run_of_continued (h : evm.Funded) (hstep : step P evm = (.ok none, evm')) :
    run P (fuel + 1) evm = run P fuel evm' := by
  simp only [run, if_pos h.1]
  rw [Act.bind_apply_ok hstep]

/-- An instruction that does not go on ends the run. -/
theorem run_of_last (h : evm.Funded) (hnext : (step P evm).1 ≠ .ok none) :
    run P (fuel + 1) evm =
      ((step P evm).1 >>= fun data => .ok (data.getD []), (step P evm).2) := by
  simp only [run, if_pos h.1]
  rcases hstep : step P evm with ⟨o, evm'⟩
  rw [hstep] at hnext
  rcases o with (_ | data) | e | p | _
  · exact absurd rfl hnext
  · rw [Act.bind_apply_ok hstep]
    rfl
  · rw [Act.bind_apply_err hstep]
    rfl
  · rw [Act.bind_apply_panic hstep]
    rfl
  · rw [Act.bind_apply_outOfFuel hstep]
    rfl

theorem run_of_halted (h : evm.Funded) (hnext : (step P evm).1 ≠ .ok none) :
    (run P (fuel + 1) evm).2 = (step P evm).2 ∧
      ((run P (fuel + 1) evm).1 = .outOfFuel → (step P evm).1 = .outOfFuel) := by
  rw [run_of_last h hnext]
  refine ⟨rfl, fun hout => ?_⟩
  cases hstep : (step P evm).1 with
  | outOfFuel => rfl
  | ok data => rw [hstep] at hout; cases hout
  | err e => rw [hstep] at hout; cases hout
  | panic p => rw [hstep] at hout; cases hout

/-- A run that comes back within some number of rounds comes back so for every larger one. -/
theorem run_extends {fuel' : ℕ} (hle : fuel ≤ fuel') :
    Act.Extends (run P fuel) (run P fuel') := by
  induction fuel generalizing fuel' with
  | zero => exact fun _ hend => absurd rfl hend
  | succ fuel ih =>
    obtain ⟨more, rfl⟩ := Nat.exists_eq_add_of_le' (Nat.one_le_of_lt hle)
    intro evm hend
    by_cases hpc : evm.pc.toNat < evm.code.length
    · simp only [run, if_pos hpc] at hend ⊢
      -- the round is the same, and what follows it has one step less
      refine (Act.Extends.refl (step P)).bind (fun result => ?_) evm hend
      cases result with
      | none => exact ih (Nat.le_of_succ_le_succ hle)
      | some data => exact Act.Extends.refl _
    · simp only [run, if_neg hpc]

theorem executed_of_not_funded (h : ¬ evm.Funded) : executed P fuel evm = [] := by
  cases fuel with
  | zero => rfl
  | succ fuel => rw [executed, if_neg h]

theorem executed_of_continued (h : evm.Funded) (hstep : step P evm = (.ok none, evm')) :
    executed P (fuel + 1) evm = evm.opcode :: executed P fuel evm' := by
  rw [executed, if_pos h, hstep]

theorem executed_of_halted (h : evm.Funded) (hnext : (step P evm).1 ≠ .ok none) :
    executed P (fuel + 1) evm = [evm.opcode] := by
  rw [executed, if_pos h]
  rcases hstep : step P evm with ⟨o, evm'⟩
  rw [hstep] at hnext
  match o with
  | .ok none => exact absurd rfl hnext
  | .ok (some data) => rfl
  | .err e => rfl
  | .panic p => rfl
  | .outOfFuel => rfl

/-! ### Every instruction comes to an end -/

theorem makeBytes_ends (n : UInt64) : Memory.makeBytes P n ≠ .outOfFuel := by
  unfold Memory.makeBytes
  split <;> exact fun h => nomatch h

theorem rightAlign_ends (bs : List UInt8) : Memory.rightAlign bs ≠ .outOfFuel := by
  unfold Memory.rightAlign
  split <;> exact fun h => nomatch h

theorem expand_ends (offset size : UInt64) : Act.Ends (Memory.expand P offset size) := by
  intro m
  unfold Memory.expand
  split
  · exact fun h => nomatch h
  · split
    · split <;> exact fun h => nomatch h
    · exact fun h => nomatch h

theorem slice_ends (offset size : UInt64) : Act.Ends (Memory.slice offset size) := by
  intro m
  unfold Memory.slice
  split <;> exact fun h => nomatch h

theorem get_ends (offset size : UInt64) : Act.Ends (Memory.get P offset size) :=
  (expand_ends _ _).bind fun _ => (Act.Ends.lift (makeBytes_ends _)).bind fun _ => slice_ends _ _

theorem set_ends (offset size : UInt64) (value : List UInt8) :
    Act.Ends (Memory.set P offset size value) :=
  (expand_ends _ _).bind fun _ => (slice_ends _ _).bind fun _ => fun _ h => nomatch h

theorem storageKey_ends (key : ℕ) : storageKey P key ≠ .outOfFuel := by
  unfold storageKey
  cases h : Memory.rightAlign (Bytes.ofNat key) with
  | outOfFuel => exact absurd h (rightAlign_ends _)
  | ok padded => exact fun h => nomatch h
  | err e => exact fun h => nomatch h
  | panic p => exact fun h => nomatch h

theorem ends_rules : Rules P Act.Ends where
  pure := Act.Ends.pure
  fail _ := Act.Ends.lift fun h => nomatch h
  bind := Act.Ends.bind
  storageKey key := Act.Ends.lift (storageKey_ends key)
  load _ _ hf evm := hf _ evm
  value hf evm := hf _ evm
  callData hf evm := hf _ evm
  pop _ h := nomatch h
  push _ _ h := nomatch h
  memoryGet _ _ := (get_ends _ _).on
  memorySet _ _ _ := (set_ends _ _ _).on
  memorySet32 _ _ := ((Act.Ends.lift (rightAlign_ends _)).bind fun _ => set_ends _ _ _).on
  retData _ _ h := nomatch h
  jumpTo dest evm := by
    unfold jumpTo
    split <;> exact fun h => nomatch h
  pushOperand n evm := by
    unfold pushOperand
    split <;> exact fun h => nomatch h
  dupWord n evm := by
    unfold dupWord
    split <;> exact fun h => nomatch h
  swapWord n evm := by
    unfold swapWord
    split <;> exact fun h => nomatch h

theorem exec_ends (op : OpCode) : Act.Ends (exec P op) :=
  ends_rules.execAll (fun _ _ _ h => nomatch h) op

/-! ### What a run writes -/

/-- Every word on the stack has at most 256 bits. -/
def Words (evm : EVM) : Prop := ∀ w ∈ evm.stack.data, w < 2 ^ 256

/-- The mask of `Stack.Push` is a remainder, also of a negative value. -/
theorem land_max256 (v : ℤ) : Int.land v Stack.max256 = v % 2 ^ 256 := by
  have hmax : Stack.max256 = Int.ofNat (2 ^ 256 - 1) := rfl
  rw [hmax]
  cases v with
  | ofNat n =>
    show ((n &&& (2 ^ 256 - 1) : ℕ) : ℤ) = (n : ℤ) % 2 ^ 256
    rw [Nat.and_two_pow_sub_one_eq_mod]
    rfl
  | negSucc n =>
    have hlt : n % 2 ^ 256 < 2 ^ 256 := Nat.mod_lt _ (by norm_num)
    -- the bits that the mask keeps of a negative number are those that are not in `n`
    have hbits : Nat.ldiff (2 ^ 256 - 1) n = 2 ^ 256 - (n % 2 ^ 256 + 1) := by
      refine Nat.eq_of_testBit_eq fun i => ?_
      rw [Nat.testBit_ldiff, Nat.testBit_two_pow_sub_one, Nat.testBit_two_pow_sub_succ hlt,
        Nat.testBit_mod_two_pow]
      cases decide (i < 256) <;> rfl
    show ((Nat.ldiff (2 ^ 256 - 1) n : ℕ) : ℤ) = Int.negSucc n % 2 ^ 256
    rw [hbits, Int.negSucc_emod n (by norm_num)]
    omega

/-- `Stack.Push` cuts a value to 256 bits. -/
theorem land_max256_lt (v : ℤ) : (Int.land v Stack.max256).toNat < 2 ^ 256 := by
  have hlt := Int.emod_lt_of_pos v (show (0 : ℤ) < 2 ^ 256 by norm_num)
  rw [land_max256]
  omega

theorem words_push (h : evm.Words) (v : ℤ) : ∀ w ∈ (evm.stack.push v).data, w < 2 ^ 256 :=
  List.forall_mem_cons.mpr ⟨land_max256_lt v, h⟩

theorem words_pop (h : evm.Words) :
    evm.stack.pop.1 < 2 ^ 256 ∧ ∀ w ∈ evm.stack.pop.2.data, w < 2 ^ 256 := by
  unfold Words at h
  unfold Stack.pop
  cases hdata : evm.stack.data with
  | nil =>
    refine ⟨by norm_num, ?_⟩
    rw [hdata]
    exact fun w hw => absurd hw List.not_mem_nil
  | cons v rest =>
    rw [hdata] at h
    exact List.forall_mem_cons.mp h

/-- Words stay words. -/
def KeepsWords (evm evm' : EVM) : Prop := evm.Words → evm'.Words

instance : Std.Refl KeepsWords where
  refl _ := id

instance : IsTrans EVM KeepsWords where
  trans _ _ _ h₁ h₂ := fun h => h₂ (h₁ h)

theorem words_getD (h : evm.Words) (n : ℕ) : evm.stack.data.getD n 0 < 2 ^ 256 := by
  by_cases hn : n < evm.stack.data.length
  · rw [List.getD_eq_getElem _ _ hn]
    exact h _ (List.getElem_mem hn)
  · rw [List.getD_eq_default _ _ (Nat.not_lt.mp hn)]
    norm_num

theorem words_rules : Rules P (Act.Moves KeepsWords) where
  pure := Act.Moves.pure
  fail _ := Act.Moves.lift _
  bind := Act.Moves.bind
  storageKey _ := Act.Moves.lift _
  load _ _ hf := Act.Moves.get.bind fun _ => hf _
  value hf := Act.Moves.get.bind fun _ => hf _
  callData hf := Act.Moves.get.bind fun _ => hf _
  pop _ h := (words_pop h).2
  push v _ h := words_push h v
  memoryGet _ _ _ h := h
  memorySet _ _ _ _ h := h
  memorySet32 _ _ _ h := h
  retData _ _ h := h
  jumpTo dest evm h := by
    unfold jumpTo
    split <;> exact h
  pushOperand n evm h := by
    unfold pushOperand
    split
    · exact h
    · exact words_push h _
  dupWord n evm h := by
    unfold dupWord
    split
    · exact h
    · exact words_push h _
  swapWord n evm h := by
    unfold swapWord
    split
    · exact h
    · intro w hw
      -- an entry of the new stack is an old one, or one of the two that changed places
      rcases List.mem_or_eq_of_mem_set hw with hw | rfl
      · rcases List.mem_or_eq_of_mem_set hw with hw | rfl
        · exact h w hw
        · exact words_getD h _
      · exact words_getD h _

theorem step_words (h : evm.Funded) (hw : evm.Words) : (step P evm).2.Words := by
  rw [step_of_funded h]
  exact words_rules.execAll (fun _ _ _ h => h) evm.opcode evm.paid hw

/-- The world state is the same. -/
def SameState (evm evm' : EVM) : Prop := evm'.state = evm.state

instance : Std.Refl SameState where
  refl _ := rfl

instance : IsTrans EVM SameState where
  trans _ _ _ h₁ h₂ := Eq.trans h₂ h₁

theorem exec_sameState {op : OpCode} (hop : op ≠ .sstore) : Act.Moves SameState (exec P op) :=
  (Rules.moves fun _ _ _ _ _ => rfl).exec fun h => absurd h hop

/-- A storage key is a word, so it fits into the 32 bytes that are hashed. -/
theorem storageKey_of_lt {key : ℕ} (hkey : key < 2 ^ 256) :
    ∃ keyHash, storageKey P key = .ok keyHash := by
  have hlen : (Bytes.ofNat key).length ≤ 32 := by
    unfold Bytes.ofNat
    rw [List.length_reverse, List.length_map, Nat.digits_length_le_iff (by norm_num)]
    exact lt_of_lt_of_le hkey (by norm_num)
  unfold storageKey Memory.rightAlign
  rw [if_pos hlen]
  exact ⟨_, rfl⟩

theorem pop_apply (evm : EVM) :
    pop evm = (.ok evm.stack.pop.1, { evm with stack := evm.stack.pop.2 }) := rfl

/-- `SSTORE` on a stack of words writes. -/
theorem exec_sstore (hw : evm.Words) :
    ∃ keyHash bytes, (exec P .sstore evm).2.state =
      evm.state.setAccountState evm.contract keyHash bytes := by
  obtain ⟨keyHash, hkey⟩ := storageKey_of_lt (P := P) (words_pop hw).1
  refine ⟨keyHash, storedBytes evm.stack.pop.2.pop.1, ?_⟩
  have hlift : ∀ s : EVM, (Act.lift (storageKey P evm.stack.pop.1) : Act EVM Err Hash) s =
      (.ok keyHash, s) := fun s => by rw [Act.lift_apply, hkey]
  simp only [exec]
  rw [Act.bind_apply_ok (pop_apply _), Act.bind_apply_ok (pop_apply _),
    Act.bind_apply_ok (hlift _)]
  rfl

/-- A round keeps the account of the contract, and creates it if the instruction is `SSTORE`. -/
theorem mem_step_iff (h : evm.Funded) (hw : evm.Words) :
    evm.contract ∈ (step P evm).2.state.accounts ↔
      evm.contract ∈ evm.state.accounts ∨ evm.opcode = .sstore := by
  have hpaid : evm.paid.Words := hw
  rw [step_of_funded h]
  by_cases hop : evm.opcode = .sstore
  · obtain ⟨keyHash, bytes, hstate⟩ := exec_sstore (P := P) hpaid
    rw [hop, hstate]
    exact iff_of_true (WorldState.mem_updateAccount _ _ _) (Or.inr rfl)
  · have hstate : (exec P evm.opcode evm.paid).2.state = evm.state :=
      exec_sameState hop evm.paid
    rw [hstate, or_iff_left hop]

/-- The contract has an account at the end of a run if it had one at the beginning or if `SSTORE`
was executed. -/
theorem mem_run_iff (hw : evm.Words) (fuel : ℕ) :
    evm.contract ∈ (run P fuel evm).2.state.accounts ↔
      evm.contract ∈ evm.state.accounts ∨ .sstore ∈ executed P fuel evm := by
  induction fuel generalizing evm with
  | zero => exact (or_iff_left List.not_mem_nil).symm
  | succ fuel ih =>
    by_cases h : evm.Funded
    · have hround := mem_step_iff (P := P) h hw
      by_cases hnext : (step P evm).1 = .ok none
      · have hstep := Act.eq_mk_of_fst hnext
        have hcontract : (step P evm).2.contract = evm.contract := (step_moves evm).contract
        have hrest := ih (step_words (P := P) h hw)
        rw [hcontract] at hrest
        rw [run_of_continued h hstep, executed_of_continued h hstep, hrest, hround, List.mem_cons,
          or_assoc, eq_comm]
      · rw [(run_of_halted h hnext).1, executed_of_halted h hnext, hround, List.mem_singleton,
          eq_comm]
    · obtain ⟨o, hrun, -⟩ := run_of_not_funded P fuel h
      rw [hrun, executed_of_not_funded h]
      exact (or_iff_left List.not_mem_nil).symm

/-- From `ws` to `ws'` nothing was written except the storage of `contract`. Its other fields are
what they were, and those of a new account are zero; the account exists if it existed before or if
something was stored. -/
structure WritesStorage (contract : Address) (stored : Prop) (ws ws' : WorldState) : Prop where
  others : ∀ a, a ≠ contract → ws'.getAccount a = ws.getAccount a
  contractCode : ws'.contractCode = ws.contractCode
  fields : ∀ acc, ws'.getAccount contract = some acc →
    acc = { (ws.getAccount contract).getD (newAccount 0) with storage := acc.storage }
  mem_iff : contract ∈ ws'.accounts ↔ contract ∈ ws.accounts ∨ stored

variable (P) in
/-- **The frame of `EVM.Run`.** It holds of every program and however the run ends. -/
theorem run_frame (code callData : List UInt8) (ws : WorldState) (contract caller : Address)
    (value : ℤ) (gasLimit : UInt64) (fuel : ℕ) :
    WritesStorage contract
      (.sstore ∈ executed P fuel (newEVM code callData ws contract caller value gasLimit)) ws
      (run P fuel (newEVM code callData ws contract caller value gasLimit)).2.state := by
  have hstart : (newEVM code callData ws contract caller value gasLimit).Words :=
    fun w hw => absurd hw List.not_mem_nil
  have hwrites : StorageWrites contract ws _ :=
    (run_moves (P := P) fuel (newEVM code callData ws contract caller value gasLimit)).state
  refine ⟨fun a ha => ?_, ?_, fun acc hacc => ?_, mem_run_iff hstart fuel⟩
  · refine hwrites.keeps (fun ws => ws.getAccount a) fun ws key bytes => ?_
    show (ws.updateAccount contract _).accounts.lookup a = _
    rw [WorldState.lookup_updateAccount, if_neg ha]
    rfl
  · exact hwrites.keeps WorldState.contractCode fun _ _ _ => rfl
  · have hsame := hwrites.keeps (fun ws => { ws.account contract with storage := ∅ })
      fun ws key bytes => by
        unfold WorldState.setAccountState
        rw [WorldState.account_updateAccount, if_pos rfl]
    have hfinal : ∀ ws' : WorldState, ws'.getAccount contract = some acc →
        ws'.account contract = acc := by
      intro ws' hacc
      unfold WorldState.account WorldState.getAccount at *
      rw [hacc]
      rfl
    simp only [hfinal _ hacc] at hsame
    obtain ⟨hnonce, hbalance, hcode, hroot, -⟩ := Account.mk.inj hsame
    cases acc
    simp only at hnonce hbalance hcode hroot
    subst hnonce hbalance hcode hroot
    rfl

/-! ### Gas -/

/-- The gas counter and its limit are as they were. -/
def SameGas (evm evm' : EVM) : Prop :=
  evm'.gasUsed = evm.gasUsed ∧ evm'.gasLimit = evm.gasLimit

instance : Std.Refl SameGas where
  refl _ := ⟨rfl, rfl⟩

instance : IsTrans EVM SameGas where
  trans _ _ _ h₁ h₂ := ⟨h₂.1.trans h₁.1, h₂.2.trans h₁.2⟩

/-- Instructions do not touch the gas; only the head of the loop does. -/
theorem exec_sameGas (op : OpCode) : Act.Moves SameGas (exec P op) :=
  Rules.exec_moves (fun _ _ _ _ _ => ⟨rfl, rfl⟩) (fun _ _ _ => ⟨rfl, rfl⟩) op

/-- The gas counter is within its limit, and the limit is not the greatest `uint64`. -/
structure Metered (evm : EVM) : Prop where
  limit_lt : evm.gasLimit.toNat < 2 ^ 64 - 1
  used_le : evm.gasUsed.toNat ≤ evm.gasLimit.toNat

/-- **A round costs one unit of gas**, and it is entered with a unit left. Below the greatest limit
the sum in `consumeGas` does not wrap. -/
theorem Metered.round (hm : evm.Metered) (h : evm.Funded) :
    (step P evm).2.Metered ∧ (step P evm).2.gasLimit = evm.gasLimit ∧
      (step P evm).2.gasUsed.toNat = evm.gasUsed.toNat + 1 := by
  have hgas : SameGas evm.paid (step P evm).2 := by
    rw [step_of_funded h]
    exact exec_sameGas _ _
  have hlimit : (step P evm).2.gasLimit = evm.gasLimit := hgas.2
  have hlt := hm.limit_lt
  have hused := hm.used_le
  have hsum : (evm.gasUsed + 1).toNat = evm.gasUsed.toNat + 1 := by
    rw [UInt64.toNat_add]
    have hone : (1 : UInt64).toNat = 1 := rfl
    rw [hone]
    omega
  have hcount : (step P evm).2.gasUsed.toNat = evm.gasUsed.toNat + 1 := by
    rw [hgas.1]
    exact hsum
  have hpaid : evm.gasUsed.toNat + 1 ≤ evm.gasLimit.toNat := by
    rw [← hsum]
    exact UInt64.le_iff_toNat_le.mp h.2
  refine ⟨⟨?_, ?_⟩, hlimit, hcount⟩
  · rw [hlimit]
    exact hlt
  · rw [hlimit, hcount]
    exact hpaid

/-- What the gas limit is there for: the run comes to an end, it executes no more instructions than
the limit says, and at every loop head the counter is the number of instructions so far. -/
structure GasBounded (P : Primitives) (evm : EVM) : Prop where
  halts : ∃ fuel, (run P fuel evm).1 ≠ .outOfFuel
  executed_le : ∀ fuel, (executed P fuel evm).length ≤ evm.gasLimit.toNat
  counted : ∀ es head, History (Continued P) evm es head →
    head.gasUsed.toNat = es.length ∧ head.gasUsed.toNat ≤ evm.gasLimit.toNat

/-- Each visit of the loop head that does not end the run takes a unit from what is left. -/
theorem Metered.halts (hm : evm.Metered)
    (hfuel : evm.gasLimit.toNat - evm.gasUsed.toNat < fuel) :
    (run P fuel evm).1 ≠ .outOfFuel := by
  induction fuel generalizing evm with
  | zero => exact absurd hfuel (Nat.not_lt_zero _)
  | succ fuel ih =>
    by_cases h : evm.Funded
    · by_cases hnext : (step P evm).1 = .ok none
      · obtain ⟨hm', hlimit, hcount⟩ := hm.round (P := P) h
        rw [run_of_continued h (Act.eq_mk_of_fst hnext)]
        apply ih hm'
        have hle := hm'.used_le
        rw [hlimit, hcount] at hle ⊢
        omega
      · intro hout
        refine exec_ends (P := P) evm.opcode evm.paid ?_
        rw [← step_of_funded h]
        exact (run_of_halted h hnext).2 hout
    · obtain ⟨o, hrun, ho⟩ := run_of_not_funded P fuel h
      rw [hrun]
      exact ho

theorem Metered.executed_le (hm : evm.Metered) (fuel : ℕ) :
    evm.gasUsed.toNat + (executed P fuel evm).length ≤ evm.gasLimit.toNat := by
  induction fuel generalizing evm with
  | zero => exact hm.used_le
  | succ fuel ih =>
    by_cases h : evm.Funded
    · obtain ⟨hm', hlimit, hcount⟩ := hm.round (P := P) h
      by_cases hnext : (step P evm).1 = .ok none
      · rw [executed_of_continued h (Act.eq_mk_of_fst hnext), List.length_cons]
        have hrest := ih hm'
        rw [hlimit, hcount] at hrest
        omega
      · rw [executed_of_halted h hnext, List.length_singleton, ← hcount, ← hlimit]
        exact hm'.used_le
    · rw [executed_of_not_funded h]
      exact hm.used_le

/-- **Below the greatest limit gas bounds every run.** -/
theorem Metered.gasBounded (hm : evm.Metered) (hstart : evm.gasUsed = 0) : GasBounded P evm where
  halts := ⟨_, hm.halts (Nat.lt_succ_self _)⟩
  executed_le fuel := le_trans (Nat.le_add_left _ _) (hm.executed_le fuel)
  counted es head hrun := by
    have hinv : head.Metered ∧ head.gasLimit = evm.gasLimit ∧ head.gasUsed.toNat = es.length := by
      refine hrun.recorded (fun es head => head.Metered ∧ head.gasLimit = evm.gasLimit ∧
        head.gasUsed.toNat = es.length) ⟨hm, rfl, ?_⟩ ?_
      · rw [hstart]
        rfl
      · rintro es head op o head' - ⟨hhead, hlimit, hcount⟩ ⟨hfunded, -, -, hstep⟩
        have hround := hhead.round (P := P) hfunded
        rw [hstep] at hround
        obtain ⟨hm', hlimit', hcount'⟩ := hround
        refine ⟨hm', hlimit'.trans hlimit, ?_⟩
        rw [hcount', hcount, List.length_append, List.length_singleton]
    obtain ⟨hhead, hlimit, hcount⟩ := hinv
    exact ⟨hcount, hlimit ▸ hhead.used_le⟩

/-! ### The greatest gas limit -/

/-- `JUMPDEST; JUMP`: the jump finds an empty stack and goes to 0. -/
def spinCode : List UInt8 := [0x5b, 0x56]

/-- The machine of `spinCode` at the greatest gas limit, at one of the two instructions. -/
def spinning (pc gasUsed : UInt64) : EVM :=
  { newEVM spinCode [] WorldState.new Address.zero Address.zero 0 18446744073709551615 with
    pc := pc
    gasUsed := gasUsed }

/-- No sum is greater than the greatest limit. -/
theorem funded_spinning {pc : UInt64} (hpc : pc.toNat < 2) (gasUsed : UInt64) :
    (spinning pc gasUsed).Funded := by
  refine ⟨hpc, UInt64.le_iff_toNat_le.mpr ?_⟩
  have hlt := (gasUsed + 1).toNat_lt
  show (gasUsed + 1).toNat ≤ 18446744073709551615
  omega

theorem step_spinning_jumpdest (gasUsed : UInt64) :
    step P (spinning 0 gasUsed) = (.ok none, spinning 1 (gasUsed + 1)) := by
  rw [step_of_funded (funded_spinning (by decide) gasUsed)]
  rfl

theorem step_spinning_jump (gasUsed : UInt64) :
    step P (spinning 1 gasUsed) = (.ok none, spinning 0 (gasUsed + 1)) := by
  rw [step_of_funded (funded_spinning (by decide) gasUsed)]
  rfl

/-- The run goes from one of the instructions to the other and back. -/
theorem run_spinning (fuel : ℕ) : ∀ gasUsed,
    (run P fuel (spinning 0 gasUsed)).1 = .outOfFuel ∧
      (run P fuel (spinning 1 gasUsed)).1 = .outOfFuel := by
  induction fuel with
  | zero => exact fun _ => ⟨rfl, rfl⟩
  | succ fuel ih =>
    intro gasUsed
    constructor
    · rw [run_of_continued (funded_spinning (by decide) gasUsed) (step_spinning_jumpdest gasUsed)]
      exact (ih _).2
    · rw [run_of_continued (funded_spinning (by decide) gasUsed) (step_spinning_jump gasUsed)]
      exact (ih _).1

variable (P) in
/-- **Gas bounds every run exactly when the limit is not the greatest `uint64`.** -/
theorem gasBounded_iff (gasLimit : UInt64) :
    (∀ code callData ws contract caller value,
      GasBounded P (newEVM code callData ws contract caller value gasLimit)) ↔
      gasLimit.toNat < 2 ^ 64 - 1 := by
  constructor
  · intro hbounded
    by_contra hmax
    have hlt := gasLimit.toNat_lt
    obtain rfl : gasLimit = 18446744073709551615 := by
      rw [← UInt64.toNat_inj]
      show gasLimit.toNat = 18446744073709551615
      omega
    obtain ⟨fuel, hhalts⟩ :=
      (hbounded spinCode [] WorldState.new Address.zero Address.zero 0).halts
    exact hhalts (run_spinning fuel 0).1
  · intro hlt code callData ws contract caller value
    exact Metered.gasBounded ⟨hlt, Nat.zero_le _⟩ rfl

/-- At the greatest limit two instructions are executed for ever. -/
theorem run_never_out_of_gas :
    (18446744073709551615 : UInt64).toNat = 2 ^ 64 - 1 ∧
      ∀ fuel, (run .sample fuel (newEVM spinCode [] WorldState.new Address.zero Address.zero 0
        18446744073709551615)).1 = .outOfFuel :=
  ⟨rfl, fun fuel => (run_spinning fuel 0).1⟩

end EVM

end Blockz
