import Blockz.Core.VMMemory
import Blockz.Core.VMTrace
import Blockz.Framework.WriteLog

/-!
# Instructions one by one

What an instruction makes of the machine, as an equation. The operands are read from the stack with
zeros behind its end (`EVM.operand`), as `Stack.Pop` has them. Three kinds of instructions are told
apart:

* those that compute on the stack alone (`OpCode.Plain`, `exec_plain`);
* those that access the memory. `access` is what they ask for, and `exec_of_not_inBounds` says that
  they panic when this is out of bounds;
* `PUSH`, the jumps and `SSTORE`, with an equation each.

`heads` lists the machines at which the rounds of a run begin, so that a log of whatever the rounds
write can be read off it (`run_replay`).

The equations hold on a machine whose stack holds words and whose memory was allocated
(`EVM.Sound`). The machines at all heads of a run are of this kind (`Reaches.sound`).
-/

namespace Blockz

open Effect

/-- An instruction that computes on the stack alone. -/
def OpCode.Plain : OpCode → Prop
  | .push _ | .sha3 | .mload | .mstore | .mstore8 | .sstore | .jump | .jumpi | .ret | .revert =>
    False
  | _ => True

namespace EVM

/-- The words on the stack have 256 bits, and the memory was allocated. -/
structure Sound (P : Primitives) (evm : EVM) : Prop where
  words : evm.Words
  memory : evm.memory.Allocated P

/-- The word at a depth of the stack, zero below its end. -/
def operand (evm : EVM) (i : ℕ) : ℕ := evm.stack.data.getD i 0

/-- The machine after `n` pops. -/
def popped (evm : EVM) (n : ℕ) : EVM := { evm with stack := ⟨evm.stack.data.drop n⟩ }

/-- The memory that an instruction asks for: the offset and the number of bytes. -/
def access (op : OpCode) (evm : EVM) : Option (UInt64 × UInt64) :=
  match op with
  -- `Uint64()` keeps the low 64 bits of a word
  | .sha3 | .ret | .revert => some (UInt64.ofNat (evm.operand 0), UInt64.ofNat (evm.operand 1))
  | .mload | .mstore => some (UInt64.ofNat (evm.operand 0), 32)
  | .mstore8 => some (UInt64.ofNat (evm.operand 0), 1)
  | _ => none

/-- The bytes that an instruction writes into the memory. -/
def bytesWritten (op : OpCode) (evm : EVM) : List UInt8 :=
  match op with
  | .mstore => Bytes.padLeft 32 (Bytes.ofNat (evm.operand 1))
  -- the lowest byte, whatever the word is
  | .mstore8 => [UInt8.ofNat (evm.operand 1)]
  | _ => []

/-- The storage key that belongs to a word. -/
def wordKey (P : Primitives) (key : ℕ) : Hash := P.sha256 (Bytes.padLeft 32 (Bytes.ofNat key))

variable {P : Primitives} {evm evm' : EVM} {op : OpCode} {offset size : UInt64}

/-! ### Operands -/

theorem operand_popped (evm : EVM) (n i : ℕ) : (evm.popped n).operand i = evm.operand (n + i) := by
  unfold operand popped
  rw [List.getD_eq_getElem?_getD, List.getD_eq_getElem?_getD, List.getElem?_drop]

theorem popped_popped (evm : EVM) (n k : ℕ) : (evm.popped n).popped k = evm.popped (n + k) := by
  unfold popped
  rw [List.drop_drop]

theorem pop_eq (evm : EVM) : pop evm = (.ok (evm.operand 0), evm.popped 1) := by
  obtain ⟨code, pc, ⟨data⟩, memory, state, contract, caller, used, limit, ret, call, value⟩ := evm
  cases data <;> rfl

theorem pop_bind {α : Type} (f : ℕ → Act EVM Err α) (evm : EVM) :
    (pop >>= f) evm = f (evm.operand 0) (evm.popped 1) :=
  Act.bind_apply_ok (pop_eq evm) f

theorem popUint64_bind {α : Type} (f : UInt64 → Act EVM Err α) (evm : EVM) :
    (popUint64 >>= f) evm = f (UInt64.ofNat (evm.operand 0)) (evm.popped 1) := by
  have hpop : popUint64 evm = (.ok (UInt64.ofNat (evm.operand 0)), evm.popped 1) := by
    unfold popUint64
    rw [pop_bind]
    rfl
  exact Act.bind_apply_ok hpop f

/-- Two words, the top first. -/
theorem pop_pop_bind {α : Type} (f : ℕ → ℕ → Act EVM Err α) (evm : EVM) :
    (pop >>= fun x => pop >>= f x) evm = f (evm.operand 0) (evm.operand 1) (evm.popped 2) := by
  rw [pop_bind, pop_bind, operand_popped, popped_popped]

/-- An offset and a word. -/
theorem popUint64_pop_bind {α : Type} (f : UInt64 → ℕ → Act EVM Err α) (evm : EVM) :
    (popUint64 >>= fun x => pop >>= f x) evm =
      f (UInt64.ofNat (evm.operand 0)) (evm.operand 1) (evm.popped 2) := by
  rw [popUint64_bind, pop_bind, operand_popped, popped_popped]

/-- An offset and a size. -/
theorem popUint64_popUint64_bind {α : Type} (f : UInt64 → UInt64 → Act EVM Err α) (evm : EVM) :
    (popUint64 >>= fun x => popUint64 >>= f x) evm =
      f (UInt64.ofNat (evm.operand 0)) (UInt64.ofNat (evm.operand 1)) (evm.popped 2) := by
  rw [popUint64_bind, popUint64_bind, operand_popped, popped_popped]

theorem push_bind {α : Type} (v : ℤ) (f : Unit → Act EVM Err α) (evm : EVM) :
    (push v >>= f) evm = f () { evm with stack := evm.stack.push v } := rfl

theorem Words.operand_lt (h : evm.Words) (i : ℕ) : evm.operand i < 2 ^ 256 := words_getD h i

/-- A word has at most 32 bytes, and exactly 32 when it is padded. -/
theorem length_ofNat_word {w : ℕ} (h : w < 2 ^ 256) : (Bytes.ofNat w).length ≤ 32 :=
  Bytes.length_ofNat_le (lt_of_lt_of_le h (by norm_num))

theorem length_wordBytes {w : ℕ} (h : w < 2 ^ 256) :
    (Bytes.padLeft 32 (Bytes.ofNat w)).length = 32 :=
  Bytes.length_padLeft (length_ofNat_word h)

theorem Words.length_le (h : evm.Words) (i : ℕ) : (Bytes.ofNat (evm.operand i)).length ≤ 32 :=
  length_ofNat_word (h.operand_lt i)

theorem binary_eq (f : ℤ → ℤ → ℤ) (evm : EVM) :
    binary f evm = (.ok none, { evm with
      stack := (evm.popped 2).stack.push (f (evm.operand 0) (evm.operand 1)) }) := by
  unfold binary
  rw [pop_pop_bind, push_bind]
  rfl

theorem exec_iszero (P : Primitives) (evm : EVM) :
    exec P .iszero evm = (.ok none, { evm with
      stack := (evm.popped 1).stack.push (if evm.operand 0 = 0 then 1 else 0) }) := by
  simp only [exec]
  rw [pop_bind, push_bind]
  rfl

theorem exec_calldataload (P : Primitives) (evm : EVM) :
    exec P .calldataload evm = (.ok none, { evm with
      stack := (evm.popped 1).stack.push (Bytes.toNat
        (Bytes.window evm.callData (UInt64.ofNat (evm.operand 0)).toNat 32)) }) := by
  simp only [exec]
  rw [popUint64_bind, Act.get_bind_apply, push_bind, Bytes.padRight_drop]
  rfl

/-- `DUP` on a stack that is too short. -/
theorem exec_dup_of_short {n : ℕ} (h : evm.stack.data.length < n) :
    exec P (.dup n) evm = (.err .dupOutOfBounds, evm) := by
  simp only [exec, dupWord, if_pos h]

theorem exec_swap_of_short {n : ℕ} (h : evm.stack.data.length ≤ n) :
    exec P (.swap n) evm = (.err .swapOutOfBounds, evm) := by
  simp only [exec, swapWord, if_pos h]

/-! ### Storage -/

theorem storageKey_eq (hw : evm.Words) (i : ℕ) :
    storageKey P (evm.operand i) = .ok (wordKey P (evm.operand i)) := by
  unfold storageKey Memory.rightAlign
  rw [if_pos (hw.length_le i)]
  rfl

theorem exec_sload (hw : evm.Words) :
    exec P .sload evm = (.ok none, { evm with
      stack := (evm.popped 1).stack.push (evm.load (wordKey P (evm.operand 0))) }) := by
  simp only [exec]
  rw [pop_bind, storageKey_eq hw 0, Act.bind_apply_ok (Act.lift_apply _ _),
    Act.get_bind_apply, push_bind]
  rfl

theorem exec_sstore_eq (hw : evm.Words) :
    exec P .sstore evm = (.ok none, { evm.popped 2 with
      state := evm.state.setAccountState evm.contract (wordKey P (evm.operand 0))
        (storedBytes (evm.operand 1)) }) := by
  simp only [exec]
  rw [pop_pop_bind, storageKey_eq hw 0,
    Act.bind_apply_ok (Act.lift_apply _ _), Act.modify_bind_apply]
  rfl

/-! ### Jumps -/

theorem exec_jump (P : Primitives) (evm : EVM) :
    exec P .jump evm = jumpTo (UInt64.ofNat (evm.operand 0)) (evm.popped 1) := by
  simp only [exec]
  rw [popUint64_bind]

theorem exec_jumpi (P : Primitives) (evm : EVM) :
    exec P .jumpi evm = if evm.operand 1 = 0 then (.ok none, evm.popped 2)
      else jumpTo (UInt64.ofNat (evm.operand 0)) (evm.popped 2) := by
  simp only [exec]
  rw [popUint64_pop_bind]
  split <;> rfl

/-! ### Memory -/

/-- `Set32` of a word writes its 32 bytes. -/
theorem set32_eq {w : ℕ} (h : w < 2 ^ 256) (offset : UInt64) (m : Memory) :
    Memory.set32 P offset w m = Memory.set P offset 32 (Bytes.padLeft 32 (Bytes.ofNat w)) m := by
  unfold Memory.set32 Memory.rightAlign
  rw [if_pos (length_ofNat_word h), Act.bind_apply_ok (Act.lift_apply _ _)]

theorem onMemory_ok {α : Type} {m : Act Memory Err α} {a : α} {memory : Memory} (evm : EVM)
    (h : m evm.memory = (.ok a, memory)) :
    onMemory m evm = (.ok a, { evm with memory := memory }) := by
  unfold onMemory
  rw [Act.on_apply, h]

/-- A panic of the memory is one of the instruction. -/
theorem onMemory_panic {α β : Type} {m : Act Memory Err α} {p : Panic} (f : α → Act EVM Err β)
    (evm : EVM) (h : (m evm.memory).1 = .panic p) : ((onMemory m >>= f) evm).1 = .panic p := by
  have hon : (onMemory m evm).1 = .panic p := by
    unfold onMemory
    rw [Act.on_apply]
    exact h
  rw [Act.bind_apply_panic (Act.eq_mk_of_fst hon)]

section Get

variable {data : List UInt8} {memory : Memory}

theorem exec_mload (hget : Memory.get P (UInt64.ofNat (evm.operand 0)) 32 evm.memory =
      (.ok data, memory)) :
    exec P .mload evm = (.ok none, { evm with
      stack := (evm.popped 1).stack.push (Bytes.toNat data)
      memory := memory }) := by
  simp only [exec]
  rw [popUint64_bind, Act.bind_apply_ok (onMemory_ok (evm.popped 1) hget)]
  rfl

variable (hget : Memory.get P (UInt64.ofNat (evm.operand 0)) (UInt64.ofNat (evm.operand 1))
  evm.memory = (.ok data, memory))

include hget

theorem exec_sha3 :
    exec P .sha3 evm = (.ok none, { evm with
      stack := (evm.popped 2).stack.push (P.keccak256 data).toNat
      memory := memory }) := by
  simp only [exec]
  rw [popUint64_popUint64_bind, Act.bind_apply_ok (onMemory_ok (evm.popped 2) hget)]
  rfl

theorem exec_ret :
    exec P .ret evm = (.ok (some data), { evm with
      stack := (evm.popped 2).stack
      memory := memory
      retData := data }) := by
  simp only [exec]
  rw [popUint64_popUint64_bind, Act.bind_apply_ok (onMemory_ok (evm.popped 2) hget)]
  rfl

theorem exec_revert :
    exec P .revert evm = (.err (.revert data), { evm with
      stack := (evm.popped 2).stack
      memory := memory
      retData := data }) := by
  simp only [exec]
  rw [popUint64_popUint64_bind, Act.bind_apply_ok (onMemory_ok (evm.popped 2) hget)]
  rfl

end Get

theorem exec_mstore {memory : Memory}
    (hset : Memory.set32 P (UInt64.ofNat (evm.operand 0)) (evm.operand 1) evm.memory =
      (.ok (), memory)) :
    exec P .mstore evm = (.ok none, { evm.popped 2 with memory := memory }) := by
  simp only [exec]
  rw [popUint64_pop_bind, Act.bind_apply_ok (onMemory_ok (evm.popped 2) hset)]
  rfl

theorem exec_mstore8 {memory : Memory}
    (hset : Memory.set P (UInt64.ofNat (evm.operand 0)) 1 [UInt8.ofNat (evm.operand 1)] evm.memory =
      (.ok (), memory)) :
    exec P .mstore8 evm = (.ok none, { evm.popped 2 with memory := memory }) := by
  simp only [exec]
  rw [popUint64_pop_bind, Act.bind_apply_ok (onMemory_ok (evm.popped 2) hset)]
  rfl

/-- **A memory instruction in bounds** comes back. It writes its bytes at the offset, and whatever
else it does is done to the stack and to the returned data. -/
theorem exec_of_inBounds (hs : evm.Sound P) (haccess : access op evm = some (offset, size))
    (h : evm.memory.InBounds P offset size) :
    ∃ o stack memory retData, exec P op evm = (o, { evm with
        stack := stack
        memory := memory
        retData := retData }) ∧ o.Returns ∧
      memory =
        (evm.memory.grown offset size).overwritten offset.toNat (evm.bytesWritten op) := by
  have hget := Memory.get_of_inBounds hs.memory h
  -- a read leaves the memory as a write of no bytes would
  have hkept := (Memory.overwritten_nil (evm.memory.grown offset size) offset.toNat).symm
  cases op <;> cases haccess
  case sha3 => exact ⟨_, _, _, _, exec_sha3 hget, trivial, hkept⟩
  case mload => exact ⟨_, _, _, _, exec_mload hget, trivial, hkept⟩
  case ret => exact ⟨_, _, _, _, exec_ret hget, trivial, hkept⟩
  case revert => exact ⟨_, _, _, _, exec_revert hget, trivial, hkept⟩
  case mstore =>
    have hlen : (Bytes.padLeft 32 (Bytes.ofNat (evm.operand 1))).length = (32 : UInt64).toNat :=
      length_wordBytes (hs.words.operand_lt 1)
    have hset := Memory.set_of_inBounds hs.memory h hlen
    rw [← set32_eq (hs.words.operand_lt 1)] at hset
    exact ⟨_, _, _, _, exec_mstore hset, trivial, rfl⟩
  case mstore8 =>
    have hlen : [UInt8.ofNat (evm.operand 1)].length = (1 : UInt64).toNat := rfl
    have hset := Memory.set_of_inBounds hs.memory h hlen
    exact ⟨_, _, _, _, exec_mstore8 hset, trivial, rfl⟩

/-- **A memory instruction out of bounds** panics. -/
theorem exec_of_not_inBounds (hw : evm.Words) (haccess : access op evm = some (offset, size))
    (h : ¬ evm.memory.InBounds P offset size) :
    ∃ p, Memory.OfMemory p ∧ (exec P op evm).1 = .panic p := by
  obtain ⟨p, hp, hget⟩ := Memory.get_of_not_inBounds h
  cases op <;> cases haccess
  case mstore =>
    obtain ⟨p, hp, hset⟩ :=
      Memory.set_of_not_inBounds h (Bytes.padLeft 32 (Bytes.ofNat (evm.operand 1)))
    rw [← set32_eq (hw.operand_lt 1)] at hset
    simp only [exec]
    rw [popUint64_pop_bind]
    exact ⟨p, hp, onMemory_panic _ (evm.popped 2) hset⟩
  case mstore8 =>
    obtain ⟨p, hp, hset⟩ := Memory.set_of_not_inBounds h [UInt8.ofNat (evm.operand 1)]
    simp only [exec]
    rw [popUint64_pop_bind]
    exact ⟨p, hp, onMemory_panic _ (evm.popped 2) hset⟩
  case mload =>
    simp only [exec]
    rw [popUint64_bind]
    exact ⟨p, hp, onMemory_panic _ (evm.popped 1) hget⟩
  -- the others pop an offset and a size
  all_goals
    simp only [exec]
    rw [popUint64_popUint64_bind]
    exact ⟨p, hp, onMemory_panic _ (evm.popped 2) hget⟩

/-! ### Plain instructions -/

/-- **A plain instruction** comes back and writes nothing but the stack. -/
theorem exec_plain (hw : evm.Words) (hop : op.Plain) :
    ∃ o stack, exec P op evm = (o, { evm with stack := stack }) ∧ o.Returns := by
  cases op
  case dup n =>
    simp only [exec, dupWord]
    split
    · exact ⟨_, _, rfl, trivial⟩
    · exact ⟨_, _, rfl, trivial⟩
  case swap n =>
    simp only [exec, swapWord]
    split
    · exact ⟨_, _, rfl, trivial⟩
    · exact ⟨_, _, rfl, trivial⟩
  case pop => exact ⟨_, _, pop_bind _ evm, trivial⟩
  case add | sub | mul | div | eq | lt | gt | and | or =>
    simp only [exec]
    exact ⟨_, _, binary_eq _ evm, trivial⟩
  case iszero => exact ⟨_, _, exec_iszero P evm, trivial⟩
  case sload => exact ⟨_, _, exec_sload hw, trivial⟩
  case calldataload => exact ⟨_, _, exec_calldataload P evm, trivial⟩
  case callvalue => exact ⟨_, _, rfl, trivial⟩
  case calldatasize => exact ⟨_, _, rfl, trivial⟩
  case jumpdest => exact ⟨_, evm.stack, rfl, trivial⟩
  case stop => exact ⟨_, evm.stack, rfl, trivial⟩
  case unsupported => exact ⟨_, evm.stack, rfl, trivial⟩
  -- what is left is not plain
  all_goals exact hop.elim

/-! ### Every instruction -/

/-- The memory that the instruction asks for is in bounds. -/
def Accessible (P : Primitives) (op : OpCode) (evm : EVM) : Prop :=
  ∀ a ∈ access op evm, evm.memory.InBounds P a.1 a.2

theorem jumpTo_spec (dest : UInt64) (evm : EVM) :
    (jumpTo dest evm).1.Returns ∧ (jumpTo dest evm).2.memory = evm.memory := by
  unfold jumpTo
  split
  · exact ⟨trivial, rfl⟩
  · exact ⟨trivial, rfl⟩

theorem exec_of_access_none (hw : evm.Words) (h : access op evm = none) :
    (exec P op evm).1.Returns ∧ (exec P op evm).2.memory = evm.memory := by
  by_cases hop : op.Plain
  · obtain ⟨o, stack, hexec, ho⟩ := exec_plain (P := P) hw hop
    rw [hexec]
    exact ⟨ho, rfl⟩
  · cases op
    case push n =>
      simp only [exec, pushOperand]
      split
      · exact ⟨trivial, rfl⟩
      · exact ⟨trivial, rfl⟩
    case sstore =>
      rw [exec_sstore_eq hw]
      exact ⟨trivial, rfl⟩
    case jump =>
      rw [exec_jump]
      exact jumpTo_spec _ (evm.popped 1)
    case jumpi =>
      rw [exec_jumpi]
      split
      · exact ⟨trivial, rfl⟩
      · exact jumpTo_spec _ (evm.popped 2)
    case sha3 | mload | mstore | mstore8 | ret | revert => cases h
    all_goals exact absurd trivial hop

theorem length_bytesWritten_le (hw : evm.Words) (haccess : access op evm = some (offset, size)) :
    (evm.bytesWritten op).length ≤ size.toNat := by
  cases op <;> cases haccess
  case mstore => exact (length_wordBytes (hw.operand_lt 1)).le
  case mstore8 => exact le_rfl
  all_goals exact Nat.zero_le _

/-- **Instructions whose accesses are in bounds come back**, and leave an allocated memory. -/
theorem exec_of_accessible (hs : evm.Sound P) (h : Accessible P op evm) :
    (exec P op evm).1.Returns ∧ (exec P op evm).2.memory.Allocated P := by
  cases haccess : access op evm with
  | none =>
    obtain ⟨hreturns, hmemory⟩ := exec_of_access_none (P := P) hs.words haccess
    rw [hmemory]
    exact ⟨hreturns, hs.memory⟩
  | some a =>
    obtain ⟨o, stack, memory, retData, hexec, ho, hmemory⟩ :=
      exec_of_inBounds hs haccess (h a haccess)
    rw [hexec]
    refine ⟨ho, ?_⟩
    show memory.Allocated P
    rw [hmemory]
    exact hs.memory.written (h a haccess) (length_bytesWritten_le hs.words haccess)

/-- **The others panic.** -/
theorem exec_of_not_accessible (hw : evm.Words) (h : ¬ Accessible P op evm) :
    ∃ p, Memory.OfMemory p ∧ (exec P op evm).1 = .panic p := by
  unfold Accessible at h
  push Not at h
  obtain ⟨a, haccess, hout⟩ := h
  exact exec_of_not_inBounds hw haccess hout

theorem accessible_of_not_panic (hw : evm.Words) (h : ∀ p, (exec P op evm).1 ≠ .panic p) :
    Accessible P op evm := by
  by_contra hout
  obtain ⟨p, -, hp⟩ := exec_of_not_accessible (P := P) hw hout
  exact h p hp

/-! ### The heads of a run -/

theorem Sound.paid (hs : evm.Sound P) : evm.paid.Sound P := ⟨hs.words, hs.memory⟩

theorem newEVM_sound (P : Primitives) (code callData : List UInt8) (ws : WorldState)
    (contract caller : Address) (value : ℤ) (gasLimit : UInt64) :
    (newEVM code callData ws contract caller value gasLimit).Sound P :=
  ⟨fun _ hw => absurd hw List.not_mem_nil, Nat.zero_le _⟩

/-- A round that comes back has accessed the memory in bounds, so the machine stays sound. -/
theorem Sound.step (hs : evm.Sound P) (h : evm.Funded) (hstep : step P evm = (.ok none, evm')) :
    Accessible P evm.opcode evm.paid ∧ evm'.Sound P := by
  have hexec : exec P evm.opcode evm.paid = (.ok none, evm') := by
    rw [← step_of_funded h]
    exact hstep
  have hin : Accessible P evm.opcode evm.paid := by
    apply accessible_of_not_panic hs.paid.words
    rw [hexec]
    exact fun p hp => nomatch hp
  have hwords := step_words (P := P) h hs.words
  have hmemory := (exec_of_accessible hs.paid hin).2
  rw [hstep] at hwords
  rw [hexec] at hmemory
  exact ⟨hin, hwords, hmemory⟩

variable {es : List (OpCode × Outcome Err (Option (List UInt8)))} {head : EVM} {fuel : ℕ}

/-- The loop comes to `head` when it starts with `evm`. -/
def Reaches (P : Primitives) (evm head : EVM) : Prop := ∃ es, History (Continued P) evm es head

/-- A predicate on machines that every round keeps holds at every head. -/
theorem Reaches.invariant {I : EVM → Prop} (hreach : Reaches P evm head) (hstart : I evm)
    (hround : ∀ s s', Reaches P evm s → I s → s.Funded → EVM.step P s = (.ok none, s') → I s') :
    I head := by
  obtain ⟨es, hrun⟩ := hreach
  -- the past of a round makes its head a head of the run
  refine hrun.recorded (fun _ => I) hstart ?_
  rintro es s op o s' past hs ⟨hfunded, -, rfl, hstep⟩
  exact hround s s' ⟨es, past⟩ hs hfunded hstep

theorem Reaches.sound (hreach : Reaches P evm head) (hs : evm.Sound P) : head.Sound P :=
  hreach.invariant hs fun _ _ _ hsound hfunded hstep => (hsound.step hfunded hstep).2

/-- The frame of a run holds at its heads. -/
theorem Reaches.frame (hreach : Reaches P evm head) : Frame evm head := by
  refine hreach.invariant (refl_of Frame evm) ?_
  intro s s' _ hs _ hstep
  have hframe := step_moves (P := P) s
  rw [hstep] at hframe
  exact trans_of Frame hs hframe

/-- What a run does from a head on is what it does there. -/
theorem run_of_history (hrun : History (Continued P) evm es head) :
    run P (es.length + fuel) evm = run P fuel head := by
  induction hrun generalizing fuel with
  | start => rw [List.length_nil, Nat.zero_add]
  | call past last ih =>
    obtain ⟨hfunded, -, rfl, hstep⟩ := last
    rw [List.length_append, List.length_singleton, Nat.add_assoc, ih, Nat.add_comm 1,
      run_of_continued hfunded hstep]

theorem Reaches.refl (P : Primitives) (evm : EVM) : Reaches P evm evm := ⟨[], .start⟩

/-- What is reached after a round is reached. -/
theorem Reaches.of_step (hfunded : evm.Funded) (hstep : EVM.step P evm = (.ok none, evm'))
    (hreach : Reaches P evm' head) : Reaches P evm head := by
  obtain ⟨es, hrun⟩ := hreach
  exact ⟨_, hrun.cons ⟨hfunded, rfl, rfl, hstep⟩⟩

/-- The heads of a run are the machines at which its fuel can be used up. -/
theorem reaches_iff : Reaches P evm head ↔ ∃ n, run P n evm = (.outOfFuel, head) := by
  constructor
  · rintro ⟨es, hrun⟩
    refine ⟨es.length, ?_⟩
    have hcut : run P (es.length + 0) evm = run P 0 head := run_of_history hrun
    exact hcut
  · rintro ⟨n, hrun⟩
    induction n generalizing evm with
    | zero =>
      obtain ⟨-, rfl⟩ := Prod.mk.inj hrun
      exact .refl P evm
    | succ n ih =>
      by_cases hfunded : evm.Funded
      · by_cases hnext : (step P evm).1 = .ok none
        · have hstep := Act.eq_mk_of_fst hnext
          rw [run_of_continued hfunded hstep] at hrun
          exact (ih hrun).of_step hfunded hstep
        · -- an instruction comes to an end
          have hout := (run_of_halted hfunded hnext).2 (congrArg Prod.fst hrun)
          rw [step_of_funded hfunded] at hout
          exact absurd hout (exec_ends evm.opcode evm.paid)
      · obtain ⟨o, hend, ho⟩ := run_of_not_funded P n hfunded
        rw [hend] at hrun
        exact absurd (Prod.mk.inj hrun).1 ho

theorem not_panic_of_outOfFuel (hrun : run P fuel evm = (.outOfFuel, head)) (p : Panic) :
    (run P fuel evm).1 ≠ .panic p := by
  rw [hrun]
  exact fun hp => nomatch hp

/-- The heads of a run that ends are those of its rounds. -/
theorem Reaches.within (hreach : Reaches P evm head) (hend : (run P fuel evm).1 ≠ .outOfFuel) :
    ∃ n < fuel, run P n evm = (.outOfFuel, head) := by
  obtain ⟨n, hrun⟩ := reaches_iff.mp hreach
  refine ⟨n, ?_, hrun⟩
  by_contra hn
  apply hend
  rw [← run_extends (Nat.not_lt.mp hn) evm hend, hrun]

/-- A run leads to a head at which its fuel is used up, or to one whose round is its last. -/
theorem run_cases (P : Primitives) (fuel : ℕ) (evm : EVM) :
    ∃ head, Reaches P evm head ∧
      (run P fuel evm = (.outOfFuel, head) ∨
        run P fuel evm = run P 1 head ∧ (head.Funded → (step P head).1 ≠ .ok none)) := by
  induction fuel generalizing evm with
  | zero => exact ⟨evm, .refl P evm, Or.inl rfl⟩
  | succ fuel ih =>
    by_cases hlast : evm.Funded ∧ (step P evm).1 = .ok none
    · obtain ⟨hfunded, hnext⟩ := hlast
      have hstep := Act.eq_mk_of_fst hnext
      obtain ⟨head, hreach, hend⟩ := ih (step P evm).2
      refine ⟨head, hreach.of_step hfunded hstep, ?_⟩
      rw [run_of_continued hfunded hstep]
      exact hend
    · refine ⟨evm, .refl P evm, Or.inr ⟨?_, fun hfunded hnext => hlast ⟨hfunded, hnext⟩⟩⟩
      -- one visit is as good as any number
      by_cases hfunded : evm.Funded
      · have hnext : (step P evm).1 ≠ .ok none := fun h => hlast ⟨hfunded, h⟩
        rw [run_of_last hfunded hnext, run_of_last hfunded hnext]
      · rw [run_of_unfunded hfunded, run_of_unfunded hfunded]

/-! ### Logs -/

variable (P) in
/-- The machines at the beginning of the rounds of a run, oldest first. -/
def heads : ℕ → EVM → List EVM
  | 0, _ => []
  | fuel + 1, evm =>
    if evm.Funded then
      -- the round that ends the run is one of them
      evm ::
        match step P evm with
        | (.ok none, evm') => heads fuel evm'
        | _ => []
    else []

theorem heads_of_not_funded (h : ¬ evm.Funded) : heads P fuel evm = [] := by
  cases fuel with
  | zero => rfl
  | succ fuel => rw [heads, if_neg h]

theorem heads_of_continued (h : evm.Funded) (hstep : step P evm = (.ok none, evm')) :
    heads P (fuel + 1) evm = evm :: heads P fuel evm' := by
  rw [heads, if_pos h, hstep]

theorem heads_of_last (h : evm.Funded) (hnext : (step P evm).1 ≠ .ok none) :
    heads P (fuel + 1) evm = [evm] := by
  rw [heads, if_pos h]
  rcases hstep : step P evm with ⟨o, evm'⟩
  rw [hstep] at hnext
  rcases o with (_ | data) | e | p | _
  · exact absurd rfl hnext
  · rfl
  · rfl
  · rfl
  · rfl

theorem Reaches.of_mem_heads (h : head ∈ heads P fuel evm) : Reaches P evm head := by
  induction fuel generalizing evm with
  | zero => exact absurd h List.not_mem_nil
  | succ fuel ih =>
    by_cases hfunded : evm.Funded
    · by_cases hnext : (EVM.step P evm).1 = .ok none
      · have hstep := Act.eq_mk_of_fst hnext
        rw [heads_of_continued hfunded hstep] at h
        rcases List.mem_cons.mp h with rfl | hlater
        · exact .refl P head
        · exact (ih hlater).of_step hfunded hstep
      · rw [heads_of_last hfunded hnext, List.mem_singleton] at h
        rw [h]
        exact .refl P evm
    · rw [heads_of_not_funded hfunded] at h
      exact absurd h List.not_mem_nil

/-- **A run replays what its rounds write.** `view` is some reading of the machine, and `writes`
what the round at a head writes to it. -/
theorem run_replay {κ ν : Type} [DecidableEq κ] (view : EVM → κ → ν) (writes : EVM → List (κ × ν))
    (hround : ∀ s, Reaches P evm s → s.Funded → (∀ p, (step P s).1 ≠ .panic p) →
      view (step P s).2 = WriteLog.replay (view s) (writes s))
    (hrun : ∀ p, (run P fuel evm).1 ≠ .panic p) :
    view (run P fuel evm).2 = WriteLog.replay (view evm) ((heads P fuel evm).flatMap writes) := by
  induction fuel generalizing evm with
  | zero => rfl
  | succ fuel ih =>
    by_cases h : evm.Funded
    · by_cases hnext : (step P evm).1 = .ok none
      · have hstep := Act.eq_mk_of_fst hnext
        have hfirst := hround evm (.refl P evm) h (by rw [hnext]; exact fun p hp => nomatch hp)
        rw [run_of_continued h hstep] at hrun ⊢
        rw [ih (fun s hs => hround s (hs.of_step h hstep)) hrun, hfirst,
          heads_of_continued h hstep, List.flatMap_cons, WriteLog.replay_append]
      · have hfirst : ∀ p, (step P evm).1 ≠ .panic p := by
          intro p hp
          apply hrun p
          rw [run_of_last h hnext, hp]
          rfl
        rw [run_of_last h hnext, heads_of_last h hnext, List.flatMap_singleton]
        exact hround evm (.refl P evm) h hfirst
    · rw [run_of_unfunded h, heads_of_not_funded h]
      rfl

end EVM

end Blockz
