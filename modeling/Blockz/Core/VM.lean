import Blockz.Core.WorldState
import Blockz.Primitives
import Mathlib.Data.Int.Bitwise

/-!
# The virtual machine

`core/vm.go`. An `EVM` holds the code, the operand stack, the memory, the gas counters and the
world state it writes to; `EVM.run` is the interpreter loop, with one instruction for each round.

Where the model departs from the letter of the source:

* The top of the stack is the head of the list.
* The loop is bounded by an argument `fuel`, because the gas counter does not bound it: at the gas
  limit `2 ^ 64 - 1` the comparison in `consumeGas` wraps and never fails. A run that returns does
  so for every larger `fuel`.
* `len(code)` and `len(callData)` are compared as numbers; a slice is shorter than `2 ^ 63`.

Every slice expression and every allocation is checked as the runtime checks it, so a panic of the
source is a panic of the model. `make([]byte, n)` has length and capacity `n`, hence the capacity
of the memory is its length.
-/

namespace Blockz

open Effect

/-! ### Operations -/

/-- The instructions that `EVM.Run` tells apart. The operations that are declared but not
implemented (`SDIV`, `MOD`, `SMOD`, `EXP`, `XOR`, `NOT`, `PC`, `MSIZE`) fall under `unsupported`,
as does every byte that is not an operation at all. -/
inductive OpCode
  | push (n : ℕ)
  | dup (n : ℕ)
  | swap (n : ℕ)
  | pop | add | sub | mul | div | eq | lt | gt | iszero | and | or
  | sha3 | mload | mstore | mstore8 | sload | sstore
  | callvalue | calldataload | calldatasize
  | jump | jumpi | jumpdest | ret | revert | stop
  | unsupported (op : UInt8)
  deriving DecidableEq, Repr

/-- The `switch` of `EVM.Run`: first the three ranges, then the single operations. -/
def OpCode.ofByte (op : UInt8) : OpCode :=
  if 0x60 ≤ op ∧ op ≤ 0x7f then .push (op.toNat - 0x60 + 1)
  else if 0x80 ≤ op ∧ op ≤ 0x8f then .dup (op.toNat - 0x80 + 1)
  else if 0x90 ≤ op ∧ op ≤ 0x9f then .swap (op.toNat - 0x90 + 1)
  else match op with
    | 0x50 => .pop
    | 0x01 => .add
    | 0x03 => .sub
    | 0x02 => .mul
    | 0x04 => .div
    | 0x14 => .eq
    | 0x10 => .lt
    | 0x11 => .gt
    | 0x15 => .iszero
    | 0x16 => .and
    | 0x17 => .or
    | 0x20 => .sha3
    | 0x51 => .mload
    | 0x52 => .mstore
    | 0x53 => .mstore8
    | 0x54 => .sload
    | 0x55 => .sstore
    | 0x34 => .callvalue
    | 0x35 => .calldataload
    | 0x36 => .calldatasize
    | 0x56 => .jump
    | 0x57 => .jumpi
    | 0x5b => .jumpdest
    | 0xf3 => .ret
    | 0xfd => .revert
    | 0x00 => .stop
    | op => .unsupported op

/-! ### Stack and memory -/

/-- `core.Stack`, with the top first. -/
structure Stack where
  data : List ℕ
  deriving DecidableEq, Repr

namespace Stack

/-- `Max256`. -/
def max256 : ℤ := 2 ^ 256 - 1

/-- `Stack.Push`: the value is cut to 256 bits, a negative one in two's complement. -/
def push (s : Stack) (v : ℤ) : Stack := ⟨(Int.land v max256).toNat :: s.data⟩

/-- `Stack.Pop`: an empty stack yields zero. -/
def pop (s : Stack) : ℕ × Stack :=
  match s.data with
  | [] => (0, s)
  | v :: rest => (v, ⟨rest⟩)

end Stack

/-- `core.Memory`. -/
structure Memory where
  store : List UInt8
  deriving DecidableEq, Repr

namespace Memory

variable (P : Primitives)

/-- `make([]byte, n)`. -/
def makeBytes (n : UInt64) : Outcome Err (List UInt8) :=
  if n.toNat ≤ P.maxAlloc then .ok (List.replicate n.toNat 0) else .panic .allocation

/-- `Memory.expand`. The sum and the rounding are in `uint64` and may wrap. -/
def expand (offset size : UInt64) : Act Memory Err Unit := fun m =>
  if size = 0 then (.ok (), m)
  else if m.store.length < (offset + size).toNat then
    match makeBytes P ((offset + size + 31) / 32 * 32) with
    -- `copy` fills the new store with as much of the old one as fits
    | .ok fresh => (.ok (), ⟨m.store.take fresh.length ++ fresh.drop m.store.length⟩)
    | _ => (.panic .allocation, m)
  else (.ok (), m)

/-- The bounds check of `m.store[offset:offset+size]`. -/
def slice (offset size : UInt64) : Act Memory Err (List UInt8) := fun m =>
  if offset.toNat ≤ (offset + size).toNat ∧ (offset + size).toNat ≤ m.store.length then
    (.ok ((m.store.drop offset.toNat).take size.toNat), m)
  else (.panic .sliceBounds, m)

/-- `Memory.Set`. -/
def set (offset size : UInt64) (value : List UInt8) : Act Memory Err Unit := do
  expand P offset size
  let _ ← slice offset size
  let written := value.take size.toNat
  Act.modify fun m =>
    ⟨m.store.take offset.toNat ++ written ++ m.store.drop (offset.toNat + written.length)⟩

/-- `copy(padded[32-len(b):], b)` into 32 zero bytes. -/
def rightAlign (b : List UInt8) : Outcome Err (List UInt8) :=
  if b.length ≤ 32 then .ok (Bytes.padLeft 32 b) else .panic .sliceBounds

/-- `Memory.Set32`. -/
def set32 (offset : UInt64) (val : ℕ) : Act Memory Err Unit := do
  let padded ← Act.lift (rightAlign (Bytes.ofNat val))
  set P offset 32 padded

/-- `Memory.Get`. -/
def get (offset size : UInt64) : Act Memory Err (List UInt8) := do
  expand P offset size
  let _ ← Act.lift (makeBytes P size)
  slice offset size

end Memory

/-! ### The machine -/

/-- `core.EVM`. -/
structure EVM where
  code : List UInt8
  pc : UInt64
  stack : Stack
  memory : Memory
  state : WorldState
  contract : Address
  caller : Address
  gasUsed : UInt64
  gasLimit : UInt64
  retData : List UInt8
  callData : List UInt8
  value : ℤ

/-- `NewEVM`. -/
def newEVM (code callData : List UInt8) (state : WorldState) (contract caller : Address)
    (value : ℤ) (gasLimit : UInt64) : EVM where
  code := code
  pc := 0
  stack := ⟨[]⟩
  memory := ⟨[]⟩
  state := state
  contract := contract
  caller := caller
  gasUsed := 0
  gasLimit := gasLimit
  retData := []
  callData := callData
  value := value

namespace EVM

variable (P : Primitives)

/-- One round of the loop ends with `none`, and a `return` with the data returned. -/
abbrev Round := Act EVM Err (Option (List UInt8))

/-- `evm.stack.Pop()`. -/
def pop : Act EVM Err ℕ := fun evm =>
  (.ok evm.stack.pop.1, { evm with stack := evm.stack.pop.2 })

/-- `evm.stack.Pop().Uint64()`: the low 64 bits. -/
def popUint64 : Act EVM Err UInt64 := do
  let v ← pop
  pure (UInt64.ofNat v)

/-- `evm.stack.Push(v)`. -/
def push (v : ℤ) : Act EVM Err Unit := Act.modify fun evm => { evm with stack := evm.stack.push v }

/-- A call on the memory of the machine. -/
def onMemory {α : Type} (m : Act Memory Err α) : Act EVM Err α :=
  Act.on EVM.memory (fun memory evm => { evm with memory := memory }) m

/-- Two operands, the top first, and one result. -/
def binary (f : ℤ → ℤ → ℤ) : Round := do
  let x ← pop
  let y ← pop
  push (f x y)
  pure none

/-- `EVM.isValidJumpDest`. -/
def isValidJumpDest (evm : EVM) (dest : UInt64) : Prop :=
  dest.toNat < evm.code.length ∧ evm.code.getD dest.toNat 0 = 0x5b

instance (evm : EVM) (dest : UInt64) : Decidable (evm.isValidJumpDest dest) :=
  inferInstanceAs (Decidable (_ ∧ _))

/-- The common part of `JUMP` and of a `JUMPI` that jumps. -/
def jumpTo (dest : UInt64) : Round := fun evm =>
  if evm.isValidJumpDest dest then (.ok none, { evm with pc := dest })
  else (.err (.invalidJump dest), evm)

/-- The hashed storage key of `SLOAD` and `SSTORE`. -/
def storageKey (key : ℕ) : Outcome Err Hash := do
  let padded ← Memory.rightAlign (Bytes.ofNat key)
  pure (P.sha256 padded)

/-- The word that `SLOAD` pushes for a storage key. -/
def load (evm : EVM) (keyHash : Hash) : ℕ :=
  match evm.state.getAccountState evm.contract keyHash with
  | .ok value => Bytes.toNat value
  | _ => 0

/-- The bytes that `SSTORE` writes for a word: a zero is written as one zero byte. -/
def storedBytes (val : ℕ) : List UInt8 :=
  if val = 0 then [0] else Bytes.ofNat val

/-- `PUSH1` to `PUSH32`: the `n` bytes that follow in the code. -/
def pushOperand (n : ℕ) : Round := fun evm =>
  if evm.code.length < (evm.pc + UInt64.ofNat n).toNat then (.err .pushOutOfBounds, evm)
  else
    (.ok none, { evm with
      stack := evm.stack.push (Bytes.toNat ((evm.code.drop evm.pc.toNat).take n))
      pc := evm.pc + UInt64.ofNat n })

/-- `DUP1` to `DUP16`. -/
def dupWord (n : ℕ) : Round := fun evm =>
  if evm.stack.data.length < n then (.err .dupOutOfBounds, evm)
  else (.ok none, { evm with stack := evm.stack.push (evm.stack.data.getD (n - 1) 0) })

/-- `SWAP1` to `SWAP16`. -/
def swapWord (n : ℕ) : Round := fun evm =>
  if evm.stack.data.length ≤ n then (.err .swapOutOfBounds, evm)
  else (.ok none, { evm with
    stack := ⟨(evm.stack.data.set 0 (evm.stack.data.getD n 0)).set n (evm.stack.data.getD 0 0)⟩ })

/-- The body of the `switch`, after the opcode has been read and `pc` has moved past it. -/
def exec : OpCode → Round
  | .push n => pushOperand n
  | .dup n => dupWord n
  | .swap n => swapWord n
  | .pop => do
    let _ ← pop
    pure none
  | .add => binary fun x y => x + y
  | .sub => binary fun x y => x - y
  | .mul => binary fun x y => x * y
  | .div => binary fun x y => if y = 0 then 0 else x / y
  | .eq => binary fun x y => if x = y then 1 else 0
  | .lt => binary fun x y => if x < y then 1 else 0
  | .gt => binary fun x y => if y < x then 1 else 0
  | .iszero => do
    let x ← pop
    push (if x = 0 then 1 else 0)
    pure none
  | .and => binary Int.land
  | .or => binary Int.lor
  | .sha3 => do
    let offset ← popUint64
    let size ← popUint64
    let data ← onMemory (Memory.get P offset size)
    push (P.keccak256 data).toNat
    pure none
  | .mload => do
    let offset ← popUint64
    let word ← onMemory (Memory.get P offset 32)
    push (Bytes.toNat word)
    pure none
  | .mstore => do
    let offset ← popUint64
    let val ← pop
    onMemory (Memory.set32 P offset val)
    pure none
  | .mstore8 => do
    let offset ← popUint64
    let val ← pop
    onMemory (Memory.set P offset 1 [UInt8.ofNat val])
    pure none
  | .sload => do
    let key ← pop
    let keyHash ← Act.lift (storageKey P key)
    let evm ← Act.get
    push (evm.load keyHash)
    pure none
  | .sstore => do
    let key ← pop
    let val ← pop
    let keyHash ← Act.lift (storageKey P key)
    Act.modify fun evm =>
      { evm with state := evm.state.setAccountState evm.contract keyHash (storedBytes val) }
    pure none
  | .callvalue => do
    let evm ← Act.get
    push evm.value
    pure none
  | .calldataload => do
    let offset ← popUint64
    let evm ← Act.get
    push (Bytes.toNat (Bytes.padRight 32 (evm.callData.drop offset.toNat)))
    pure none
  | .calldatasize => do
    let evm ← Act.get
    push evm.callData.length
    pure none
  | .jump => do
    let dest ← popUint64
    jumpTo dest
  | .jumpi => do
    let dest ← popUint64
    let cond ← pop
    if cond = 0 then pure none else jumpTo dest
  | .jumpdest => pure none
  | .ret => do
    let offset ← popUint64
    let size ← popUint64
    let data ← onMemory (Memory.get P offset size)
    Act.modify fun evm => { evm with retData := data }
    pure (some data)
  | .revert => do
    let offset ← popUint64
    let size ← popUint64
    let data ← onMemory (Memory.get P offset size)
    Act.modify fun evm => { evm with retData := data }
    Act.lift (.err (.revert data))
  | .stop => pure (some [])
  -- an unknown opcode is reported on the console and skipped
  | .unsupported _ => pure none

/-- `EVM.consumeGas`; the sum is in `uint64` and may wrap. -/
def consumeGas (amount : UInt64) : Act EVM Err Unit := fun evm =>
  if evm.gasLimit < evm.gasUsed + amount then
    (.err (.outOfGas (evm.gasUsed + amount) evm.gasLimit), evm)
  else (.ok (), { evm with gasUsed := evm.gasUsed + amount })

/-- One round of the loop of `EVM.Run`, entered with `pc` inside the code. -/
def step : Round := do
  let evm ← Act.get
  consumeGas 1
  Act.modify fun evm => { evm with pc := evm.pc + 1 }
  exec P (OpCode.ofByte (evm.code.getD evm.pc.toNat 0))

/-- `EVM.Run`, for at most `fuel` visits of the loop head. -/
def run : ℕ → Act EVM Err (List UInt8)
  | 0 => fun evm => (.outOfFuel, evm)
  | fuel + 1 => fun evm =>
    if evm.pc.toNat < evm.code.length then
      (step P >>= fun
        | none => run fuel
        | some data => pure data) evm
    else (.ok evm.retData, evm)

end EVM

end Blockz
