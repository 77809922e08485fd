import Blockz.Core.VM
import Mathlib.Logic.Relation

/-!
# What a run of the machine can write

The machine reaches the world state through `SSTORE` alone, and `SSTORE` writes into the storage of
`evm.contract` alone. `EVM.Frame` records this together with the fields no instruction writes; it
is a preorder, so it passes from the single instructions (`exec_moves`) to a round of the loop
(`step_moves`) and to a whole run (`run_moves`), whatever the outcome of the run is.

`StorageWrites a ws ws'` says that `ws'` comes from `ws` by storage writes at `a`. Whatever a
single `SetAccountState` keeps, such a sequence keeps (`StorageWrites.keeps`): in particular every
nonce and every balance.
-/

namespace Blockz

open Effect

/-- One storage write at `a`. -/
def StorageWrite (a : Address) (ws ws' : WorldState) : Prop :=
  ∃ key value, ws' = ws.setAccountState a key value

/-- Any number of storage writes at `a`. -/
def StorageWrites (a : Address) : WorldState → WorldState → Prop :=
  Relation.ReflTransGen (StorageWrite a)

namespace StorageWrites

variable {a : Address} {ws ws' : WorldState}

/-- A reading of the world state that no storage write changes is the same at both ends. -/
theorem keeps {β : Type*} (f : WorldState → β)
    (hf : ∀ ws key value, f (ws.setAccountState a key value) = f ws)
    (h : StorageWrites a ws ws') : f ws' = f ws := by
  induction h with
  | refl => rfl
  | tail _ hstep ih =>
    obtain ⟨key, value, rfl⟩ := hstep
    rw [hf, ih]

theorem getNonce_eq (h : StorageWrites a ws ws') (b : Address) :
    ws'.getNonce b = ws.getNonce b := by
  refine h.keeps (fun ws => ws.getNonce b) fun ws key value => ?_
  unfold WorldState.setAccountState
  rw [WorldState.getNonce_updateAccount_of_nonce]
  exact fun _ => rfl

theorem ledger_eq (h : StorageWrites a ws ws') : ws'.ledger = ws.ledger := by
  refine h.keeps WorldState.ledger fun ws key value => ?_
  unfold WorldState.setAccountState
  rw [WorldState.ledger_updateAccount_of_balance]
  exact fun _ => rfl

end StorageWrites

namespace EVM

/-- What no instruction changes, and how the world state may move. -/
structure Frame (evm evm' : EVM) : Prop where
  code : evm'.code = evm.code
  callData : evm'.callData = evm.callData
  value : evm'.value = evm.value
  contract : evm'.contract = evm.contract
  caller : evm'.caller = evm.caller
  gasLimit : evm'.gasLimit = evm.gasLimit
  state : StorageWrites evm.contract evm.state evm'.state

instance : Std.Refl Frame where
  refl _ := ⟨rfl, rfl, rfl, rfl, rfl, rfl, .refl⟩

instance : IsTrans EVM Frame where
  trans _ _ _ h₁ h₂ :=
    { code := h₂.code.trans h₁.code
      callData := h₂.callData.trans h₁.callData
      value := h₂.value.trans h₁.value
      contract := h₂.contract.trans h₁.contract
      caller := h₂.caller.trans h₁.caller
      gasLimit := h₂.gasLimit.trans h₁.gasLimit
      state := h₁.state.trans (h₁.contract ▸ h₂.state) }

variable {P : Primitives}

/-! ### The parts of an instruction -/

/-- What a judgment on calls has to satisfy in order to hold of every instruction except `SSTORE`:
it is closed under sequencing and reading, and it holds of the calls that instructions are made
of. -/
structure Rules (P : Primitives) (J : ∀ {α : Type}, Act EVM Err α → Prop) : Prop where
  pure : ∀ {α : Type} (a : α), J (Pure.pure a)
  fail : ∀ {α : Type} (e : Err), J (Act.lift (.err e) : Act EVM Err α)
  bind : ∀ {α β : Type} {m : Act EVM Err α} {f : α → Act EVM Err β}, J m → (∀ a, J (f a)) →
    J (m >>= f)
  -- what an instruction reads besides the stack and the memory
  storageKey : ∀ key, J (Act.lift (storageKey P key))
  load : ∀ {α : Type} (keyHash : Hash) {f : ℕ → Act EVM Err α}, (∀ word, J (f word)) →
    J (Act.get >>= fun evm => f (evm.load keyHash))
  value : ∀ {α : Type} {f : ℤ → Act EVM Err α}, (∀ v, J (f v)) →
    J (Act.get >>= fun evm => f evm.value)
  callData : ∀ {α : Type} {f : List UInt8 → Act EVM Err α}, (∀ data, J (f data)) →
    J (Act.get >>= fun evm => f evm.callData)
  -- what it writes
  pop : J pop
  push : ∀ v, J (push v)
  memoryGet : ∀ offset size, J (onMemory (Memory.get P offset size))
  memorySet : ∀ offset size value, J (onMemory (Memory.set P offset size value))
  memorySet32 : ∀ offset val, J (onMemory (Memory.set32 P offset val))
  retData : ∀ data, J (Act.modify fun evm => { evm with retData := data })
  jumpTo : ∀ dest, J (jumpTo dest)
  pushOperand : ∀ n, J (pushOperand n)
  dupWord : ∀ n, J (dupWord n)
  swapWord : ∀ n, J (swapWord n)

namespace Rules

variable {J : ∀ {α : Type}, Act EVM Err α → Prop}

theorem popUint64 (rules : Rules P J) : J popUint64 :=
  rules.bind rules.pop fun _ => rules.pure _

theorem binary (rules : Rules P J) (f : ℤ → ℤ → ℤ) : J (binary f) :=
  rules.bind rules.pop fun _ => rules.bind rules.pop fun _ =>
    rules.bind (rules.push _) fun _ => rules.pure _

/-- **The rules cover the instruction set.** What is left is `SSTORE`, the one instruction that
writes the world state. -/
theorem exec (rules : Rules P J) {op : OpCode} (hsstore : op = .sstore → J (exec P op)) :
    J (exec P op) := by
  cases op <;> unfold EVM.exec
  case push n => exact rules.pushOperand n
  case dup n => exact rules.dupWord n
  case swap n => exact rules.swapWord n
  case pop => exact rules.bind rules.pop fun _ => rules.pure _
  case add => exact rules.binary _
  case sub => exact rules.binary _
  case mul => exact rules.binary _
  case div => exact rules.binary _
  case eq => exact rules.binary _
  case lt => exact rules.binary _
  case gt => exact rules.binary _
  case iszero => exact rules.bind rules.pop fun _ => rules.bind (rules.push _) fun _ => rules.pure _
  case and => exact rules.binary _
  case or => exact rules.binary _
  case sha3 =>
    exact rules.bind rules.popUint64 fun _ => rules.bind rules.popUint64 fun _ =>
      rules.bind (rules.memoryGet _ _) fun _ => rules.bind (rules.push _) fun _ => rules.pure _
  case mload =>
    exact rules.bind rules.popUint64 fun _ => rules.bind (rules.memoryGet _ _) fun _ =>
      rules.bind (rules.push _) fun _ => rules.pure _
  case mstore =>
    exact rules.bind rules.popUint64 fun _ => rules.bind rules.pop fun _ =>
      rules.bind (rules.memorySet32 _ _) fun _ => rules.pure _
  case mstore8 =>
    exact rules.bind rules.popUint64 fun _ => rules.bind rules.pop fun _ =>
      rules.bind (rules.memorySet _ _ _) fun _ => rules.pure _
  case sload =>
    exact rules.bind rules.pop fun _ => rules.bind (rules.storageKey _) fun keyHash =>
      rules.load keyHash fun _ => rules.bind (rules.push _) fun _ => rules.pure _
  case sstore => exact hsstore rfl
  case callvalue =>
    exact rules.value (f := fun v => EVM.push v >>= fun _ => Pure.pure none)
      fun _ => rules.bind (rules.push _) fun _ => rules.pure _
  case calldataload =>
    exact rules.bind rules.popUint64 fun offset =>
      rules.callData (f := fun data =>
          EVM.push (Bytes.toNat (Bytes.padRight 32 (data.drop offset.toNat))) >>= fun _ =>
            Pure.pure none)
        fun _ => rules.bind (rules.push _) fun _ => rules.pure _
  case calldatasize =>
    exact rules.callData (f := fun data => EVM.push data.length >>= fun _ => Pure.pure none)
      fun _ => rules.bind (rules.push _) fun _ => rules.pure _
  case jump => exact rules.bind rules.popUint64 fun dest => rules.jumpTo dest
  case jumpi =>
    refine rules.bind rules.popUint64 fun dest => rules.bind rules.pop fun cond => ?_
    split
    · exact rules.pure _
    · exact rules.jumpTo dest
  case jumpdest => exact rules.pure _
  case ret =>
    exact rules.bind rules.popUint64 fun _ => rules.bind rules.popUint64 fun _ =>
      rules.bind (rules.memoryGet _ _) fun _ => rules.bind (rules.retData _) fun _ => rules.pure _
  case revert =>
    exact rules.bind rules.popUint64 fun _ => rules.bind rules.popUint64 fun _ =>
      rules.bind (rules.memoryGet _ _) fun _ => rules.bind (rules.retData _) fun _ => rules.fail _
  case stop => exact rules.pure _
  case unsupported op => exact rules.pure _

/-- With a rule for storage writes they cover all of it. -/
theorem execAll (rules : Rules P J)
    (hstore : ∀ keyHash bytes, J (Act.modify fun evm =>
      { evm with state := evm.state.setAccountState evm.contract keyHash bytes }))
    (op : OpCode) : J (EVM.exec P op) := by
  refine rules.exec fun hop => ?_
  subst hop
  exact rules.bind rules.pop fun _ => rules.bind rules.pop fun val =>
    rules.bind (rules.storageKey _) fun keyHash =>
      rules.bind (hstore keyHash (storedBytes val)) fun _ => rules.pure _

/-- A preorder that does not look at the stack, the memory, the program counter and the returned
data is followed by every instruction but `SSTORE`. -/
theorem moves {R : EVM → EVM → Prop} [Std.Refl R] [IsTrans EVM R]
    (hscratch : ∀ evm stack memory pc retData,
      R evm { evm with stack := stack, memory := memory, pc := pc, retData := retData }) :
    Rules P (Act.Moves R) where
  pure := Act.Moves.pure
  fail _ := Act.Moves.lift _
  bind := Act.Moves.bind
  storageKey _ := Act.Moves.lift _
  load _ _ hf := Act.Moves.get.bind fun _ => hf _
  value hf := Act.Moves.get.bind fun _ => hf _
  callData hf := Act.Moves.get.bind fun _ => hf _
  pop evm := hscratch evm _ evm.memory evm.pc evm.retData
  push _ evm := hscratch evm _ evm.memory evm.pc evm.retData
  memoryGet _ _ evm := hscratch evm evm.stack _ evm.pc evm.retData
  memorySet _ _ _ evm := hscratch evm evm.stack _ evm.pc evm.retData
  memorySet32 _ _ evm := hscratch evm evm.stack _ evm.pc evm.retData
  retData _ evm := hscratch evm evm.stack evm.memory evm.pc _
  jumpTo dest evm := by
    unfold EVM.jumpTo
    split
    · exact hscratch evm evm.stack evm.memory _ evm.retData
    · exact refl_of R evm
  pushOperand n evm := by
    unfold EVM.pushOperand
    split
    · exact refl_of R evm
    · exact hscratch evm _ evm.memory _ evm.retData
  dupWord n evm := by
    unfold EVM.dupWord
    split
    · exact refl_of R evm
    · exact hscratch evm _ evm.memory evm.pc evm.retData
  swapWord n evm := by
    unfold EVM.swapWord
    split
    · exact refl_of R evm
    · exact hscratch evm _ evm.memory evm.pc evm.retData

/-- If it follows storage writes, it follows every instruction. -/
theorem exec_moves {R : EVM → EVM → Prop} [Std.Refl R] [IsTrans EVM R]
    (hscratch : ∀ evm stack memory pc retData,
      R evm { evm with stack := stack, memory := memory, pc := pc, retData := retData })
    (hstore : ∀ evm keyHash bytes,
      R evm { evm with state := evm.state.setAccountState evm.contract keyHash bytes })
    (op : OpCode) : Act.Moves R (EVM.exec P op) :=
  (Rules.moves hscratch).execAll (fun keyHash bytes evm => hstore evm keyHash bytes) op

end Rules

/-! ### Instructions, rounds and runs -/

theorem frame_scratch (evm : EVM) (stack : Stack) (memory : Memory) (pc : UInt64)
    (retData : List UInt8) :
    Frame evm { evm with stack := stack, memory := memory, pc := pc, retData := retData } :=
  ⟨rfl, rfl, rfl, rfl, rfl, rfl, .refl⟩

theorem exec_moves (op : OpCode) : Act.Moves Frame (exec P op) :=
  Rules.exec_moves frame_scratch
    (fun _ keyHash bytes => ⟨rfl, rfl, rfl, rfl, rfl, rfl, .single ⟨keyHash, bytes, rfl⟩⟩) op

theorem consumeGas_moves (amount : UInt64) : Act.Moves Frame (consumeGas amount) := by
  intro evm
  unfold consumeGas
  split <;> exact ⟨rfl, rfl, rfl, rfl, rfl, rfl, .refl⟩

theorem step_moves : Act.Moves Frame (step P) := by
  refine Act.Moves.get.bind fun evm => (consumeGas_moves 1).bind fun _ =>
    Act.Moves.bind ?_ fun _ => exec_moves _
  exact fun _ => ⟨rfl, rfl, rfl, rfl, rfl, rfl, .refl⟩

/-- **The frame of a run.** Whatever the code is and however the run ends, only the storage of the
contract has been written. -/
theorem run_moves (fuel : ℕ) : Act.Moves Frame (run P fuel) := by
  induction fuel with
  | zero => exact fun evm => refl_of Frame evm
  | succ fuel ih =>
    intro evm
    unfold run
    split
    · refine Act.Moves.bind step_moves (fun next => ?_) evm
      -- the loop goes round again, or the instruction returned
      cases next with
      | none => exact ih
      | some data => exact .pure data
    · exact refl_of Frame evm

end EVM

end Blockz
