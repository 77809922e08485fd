import Blockz.Core.VMStorage
import Blockz.Framework.Triple

/-!
# Reasoning about bytecode

Rules for pre- and postconditions of stretches of code, one for each of the instructions that the
contracts of this repository consist of. An assertion gives the place in the code, the gas that was
used, the stack, the memory and the world state (`At`); code, contract and gas limit stay as they
are.

* `At.instr` — one instruction, by what `exec` does.
* `push_rule`, `sload_rule`, `sstore_rule`, `mstore_rule` — the instructions.
* `ret_rule` — what a run returns that comes to a `RETURN`.
-/

namespace Blockz

open Effect

namespace EVM

/-- Where a run stands. -/
structure Point where
  pc : ℕ
  gas : ℕ
  stack : List ℕ
  memory : Memory
  state : WorldState

/-- The machine runs `code` for the contract `a` under the gas limit `limit`, and stands at `p`. -/
structure At (code : List UInt8) (a : Address) (limit : UInt64) (p : Point) (evm : EVM) :
    Prop where
  code_eq : evm.code = code
  contract_eq : evm.contract = a
  limit_eq : evm.gasLimit = limit
  pc_eq : evm.pc = UInt64.ofNat p.pc
  gas_eq : evm.gasUsed = UInt64.ofNat p.gas
  stack_eq : evm.stack.data = p.stack
  memory_eq : evm.memory = p.memory
  state_eq : evm.state = p.state

/-- There is an instruction at the point, and gas for it. -/
structure Point.Ready (code : List UInt8) (limit : UInt64) (p : Point) (op : OpCode) : Prop where
  inside : p.pc < code.length
  small : code.length < 2 ^ 64
  paid : p.gas < limit.toNat
  opcode : OpCode.ofByte (code.getD p.pc 0) = op

variable {P : Primitives} {code : List UInt8} {a : Address} {limit : UInt64} {p p' : Point}
  {op : OpCode} {evm : EVM}

/-! ### One instruction -/

/-- The point that an instruction starts from: the gas is paid, and `pc` is past the opcode. -/
def Point.paid (p : Point) : Point := { p with pc := p.pc + 1, gas := p.gas + 1 }

theorem At.paid (h : At code a limit p evm) : At code a limit p.paid evm.paid where
  code_eq := h.code_eq
  contract_eq := h.contract_eq
  limit_eq := h.limit_eq
  pc_eq := by
    show evm.pc + 1 = _
    rw [h.pc_eq]
    exact (UInt64.ofNat_add p.pc 1).symm
  gas_eq := by
    show evm.gasUsed + 1 = _
    rw [h.gas_eq]
    exact (UInt64.ofNat_add p.gas 1).symm
  stack_eq := h.stack_eq
  memory_eq := h.memory_eq
  state_eq := h.state_eq

theorem At.funded (h : At code a limit p evm) (hready : p.Ready code limit op) :
    evm.Funded ∧ evm.opcode = op := by
  have hpc : evm.pc.toNat = p.pc := by
    rw [h.pc_eq, UInt64.toNat_ofNat', Nat.mod_eq_of_lt (hready.inside.trans hready.small)]
  refine ⟨⟨?_, ?_⟩, ?_⟩
  · rw [hpc, h.code_eq]
    exact hready.inside
  · -- the counter does not wrap below the limit
    have hlimit := limit.toNat_lt
    have hgas := hready.paid
    rw [h.gas_eq, h.limit_eq, UInt64.le_iff_toNat_le, UInt64.toNat_add, UInt64.toNat_ofNat']
    have hone : (1 : UInt64).toNat = 1 := rfl
    omega
  · unfold EVM.opcode
    rw [hpc, h.code_eq, hready.opcode]

/-- **One instruction.** -/
theorem At.instr (hready : p.Ready code limit op)
    (hexec : ∀ evm, At code a limit p.paid evm →
      ∃ evm', exec P op evm = (.ok none, evm') ∧ At code a limit p' evm') :
    Triple (Continued P) (At code a limit p) 1 (At code a limit p') := by
  refine Triple.of_step fun evm h => ?_
  obtain ⟨hfunded, hop⟩ := h.funded hready
  obtain ⟨evm', hcall, hat⟩ := hexec evm.paid h.paid
  refine ⟨op, .ok none, evm', ⟨hfunded, hop, rfl, ?_⟩, hat⟩
  rw [step_of_funded hfunded, hop, hcall]

theorem At.words (h : At code a limit p evm) (hwords : ∀ w ∈ p.stack, w < 2 ^ 256) :
    evm.Words := by
  intro w hw
  rw [h.stack_eq] at hw
  exact hwords w hw

/-- A word that is pushed stays as it is. -/
theorem push_of_lt {v : ℕ} (hv : v < 2 ^ 256) (s : Stack) :
    (s.push (v : ℤ)).data = v :: s.data := by
  show (Int.land v Stack.max256).toNat :: s.data = _
  have hmod : Int.land (v : ℤ) Stack.max256 = v := by
    rw [land_max256]
    exact Int.emod_eq_of_lt (by omega) (by exact_mod_cast hv)
  rw [hmod]
  rfl

/-! ### The instructions -/

/-- `PUSHn`. -/
theorem push_rule {n : ℕ} (hready : p.Ready code limit (.push n)) (hn : n ≤ 32)
    (hfits : p.pc + 1 + n ≤ code.length) :
    Triple (Continued P) (At code a limit p) 1 (At code a limit { p.paid with
      pc := p.pc + 1 + n
      stack := Bytes.toNat ((code.drop (p.pc + 1)).take n) :: p.stack }) := by
  refine At.instr hready fun evm h => ?_
  have hsmall := hready.small
  have hpc : evm.pc.toNat = p.pc + 1 := by
    rw [h.pc_eq]
    exact (UInt64.toNat_ofNat').trans (Nat.mod_eq_of_lt (by show p.pc + 1 < 2 ^ 64; omega))
  have hnext : evm.pc + UInt64.ofNat n = UInt64.ofNat (p.pc + 1 + n) := by
    rw [h.pc_eq]
    exact (UInt64.ofNat_add (p.pc + 1) n).symm
  have hend : ¬ evm.code.length < (evm.pc + UInt64.ofNat n).toNat := by
    rw [hnext, h.code_eq, UInt64.toNat_ofNat', Nat.mod_eq_of_lt (by omega)]
    omega
  have hword : Bytes.toNat ((code.drop (p.pc + 1)).take n) < 2 ^ 256 := by
    have hlt := Bytes.toNat_lt ((code.drop (p.pc + 1)).take n)
    have hlen : ((code.drop (p.pc + 1)).take n).length ≤ 32 :=
      (List.length_take_le _ _).trans hn
    calc Bytes.toNat ((code.drop (p.pc + 1)).take n)
        < 256 ^ ((code.drop (p.pc + 1)).take n).length := hlt
      _ ≤ 256 ^ 32 := Nat.pow_le_pow_right (by norm_num) hlen
      _ = 2 ^ 256 := by norm_num
  refine ⟨_, if_neg hend, h.code_eq, h.contract_eq, h.limit_eq, hnext, h.gas_eq, ?_, h.memory_eq,
    h.state_eq⟩
  show (evm.stack.push _).data = _
  rw [hpc, h.code_eq, push_of_lt hword, h.stack_eq]
  rfl

/-- `SSTORE`. -/
theorem sstore_rule {key val : ℕ} {rest : List ℕ} (hready : p.Ready code limit .sstore)
    (hstack : p.stack = key :: val :: rest) (hwords : ∀ w ∈ p.stack, w < 2 ^ 256) :
    Triple (Continued P) (At code a limit p) 1 (At code a limit { p.paid with
      stack := rest
      state := p.state.setAccountState a (wordKey P key) (storedBytes val) }) := by
  refine At.instr hready fun evm h => ?_
  have hdata : evm.stack.data = key :: val :: rest := h.stack_eq.trans hstack
  refine ⟨_, exec_sstore_eq (h.words hwords), h.code_eq, h.contract_eq, h.limit_eq, h.pc_eq,
    h.gas_eq, ?_, h.memory_eq, ?_⟩
  · show evm.stack.data.drop 2 = rest
    rw [hdata]
    rfl
  · show evm.state.setAccountState evm.contract (wordKey P (evm.operand 0))
      (storedBytes (evm.operand 1)) = _
    unfold operand
    rw [hdata, h.contract_eq, h.state_eq]
    rfl

theorem load_of_stateAt {key : Hash} {value : List UInt8}
    (hstored : evm.state.stateAt evm.contract key = some value) :
    evm.load key = Bytes.toNat value := by
  unfold WorldState.stateAt at hstored
  unfold load
  cases hget : evm.state.getAccountState evm.contract key with
  | ok stored =>
    rw [hget] at hstored
    obtain rfl := Option.some.inj hstored
    rfl
  | err e => rw [hget] at hstored; cases hstored
  | panic e => rw [hget] at hstored; cases hstored
  | outOfFuel => rw [hget] at hstored; cases hstored

/-- `SLOAD` of a key that has a value. -/
theorem sload_rule {key val : ℕ} {rest : List ℕ} (hready : p.Ready code limit .sload)
    (hstack : p.stack = key :: rest) (hwords : ∀ w ∈ p.stack, w < 2 ^ 256)
    (hval : val < 2 ^ 256) (hstored : p.state.stateAt a (wordKey P key) = some (storedBytes val)) :
    Triple (Continued P) (At code a limit p) 1 (At code a limit { p.paid with
      stack := val :: rest }) := by
  refine At.instr hready fun evm h => ?_
  have hdata : evm.stack.data = key :: rest := h.stack_eq.trans hstack
  have hload : evm.load (wordKey P (evm.operand 0)) = val := by
    have hkey : evm.operand 0 = key := by
      unfold operand
      rw [hdata]
      rfl
    rw [hkey, ← toNat_storedBytes val]
    refine load_of_stateAt ?_
    rw [h.state_eq, h.contract_eq]
    exact hstored
  refine ⟨_, exec_sload (h.words hwords), h.code_eq, h.contract_eq, h.limit_eq, h.pc_eq, h.gas_eq,
    ?_, h.memory_eq, h.state_eq⟩
  show (Stack.push ⟨evm.stack.data.drop 1⟩ _).data = val :: rest
  rw [hload, push_of_lt hval, hdata]
  rfl

/-- `MSTORE` within what can be allocated. -/
theorem mstore_rule {offset val : ℕ} {rest : List ℕ} (hready : p.Ready code limit .mstore)
    (hstack : p.stack = offset :: val :: rest) (hval : val < 2 ^ 256)
    (hmemory : p.memory.Allocated P) (hbounds : p.memory.InBounds P (UInt64.ofNat offset) 32) :
    Triple (Continued P) (At code a limit p) 1 (At code a limit { p.paid with
      stack := rest
      memory := (p.memory.grown (UInt64.ofNat offset) 32).overwritten (UInt64.ofNat offset).toNat
        (Bytes.padLeft 32 (Bytes.ofNat val)) }) := by
  refine At.instr hready fun evm h => ?_
  have hdata : evm.stack.data = offset :: val :: rest := h.stack_eq.trans hstack
  have hmem : evm.memory = p.memory := h.memory_eq
  have hset : Memory.set32 P (UInt64.ofNat (evm.operand 0)) (evm.operand 1) evm.memory =
      (.ok (), (p.memory.grown (UInt64.ofNat offset) 32).overwritten (UInt64.ofNat offset).toNat
        (Bytes.padLeft 32 (Bytes.ofNat val))) := by
    unfold operand
    rw [hdata, hmem]
    show Memory.set32 P (UInt64.ofNat offset) val p.memory = _
    rw [set32_eq hval, Memory.set_of_inBounds hmemory hbounds (length_wordBytes hval)]
  refine ⟨_, exec_mstore hset, h.code_eq, h.contract_eq, h.limit_eq, h.pc_eq, h.gas_eq, ?_, rfl,
    h.state_eq⟩
  show evm.stack.data.drop 2 = rest
  rw [hdata]
  rfl

/-- **A run that comes to a `RETURN`.** -/
theorem ret_rule {A : EVM → Prop} {n offset size : ℕ} {rest : List ℕ}
    (h : Triple (Continued P) A n (At code a limit p)) (hready : p.Ready code limit .ret)
    (hstack : p.stack = offset :: size :: rest) (hmemory : p.memory.Allocated P)
    (hbounds : p.memory.InBounds P (UInt64.ofNat offset) (UInt64.ofNat size)) {evm : EVM}
    (hevm : A evm) : ∃ evm', run P (n + 1) evm =
      (.ok (Bytes.window p.memory.store (UInt64.ofNat offset).toNat (UInt64.ofNat size).toNat),
        evm') ∧ evm'.state = p.state ∧ evm'.gasUsed = UInt64.ofNat (p.gas + 1) := by
  obtain ⟨es, head, hlength, hrun, hat⟩ := h evm hevm
  obtain ⟨hfunded, hop⟩ := hat.funded hready
  have hpaid := hat.paid
  have hdata : head.paid.stack.data = offset :: size :: rest := hpaid.stack_eq.trans hstack
  have hget : Memory.get P (UInt64.ofNat (head.paid.operand 0))
      (UInt64.ofNat (head.paid.operand 1)) head.paid.memory =
        (.ok (Bytes.window p.memory.store (UInt64.ofNat offset).toNat (UInt64.ofNat size).toNat),
          p.memory.grown (UInt64.ofNat offset) (UInt64.ofNat size)) := by
    have hmem : head.paid.memory = p.memory := hpaid.memory_eq
    unfold operand
    rw [hdata, hmem]
    exact Memory.get_of_inBounds hmemory hbounds
  have hexec := exec_ret hget
  rw [← hop, ← step_of_funded hfunded] at hexec
  obtain ⟨evm', hlast, hstate, hgas⟩ : ∃ evm', step P head = (.ok (some _), evm') ∧
      evm'.state = head.paid.state ∧ evm'.gasUsed = head.paid.gasUsed := by
    exact ⟨_, hexec, rfl, rfl⟩
  have hnext : (step P head).1 ≠ .ok none := by
    rw [hlast]
    exact fun heq => nomatch heq
  refine ⟨evm', ?_, hstate.trans hpaid.state_eq, hgas.trans hpaid.gas_eq⟩
  rw [← hlength, run_of_history hrun, run_of_last hfunded hnext, hlast]
  rfl

end EVM

end Blockz
