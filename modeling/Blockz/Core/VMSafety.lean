import Blockz.Core.VMInstruction

/-!
# Panics of the machine

A run of the machine can panic in one way only: an instruction accesses the memory out of bounds.
The offset and the size of an access are words of the stack, cut to 64 bits, and nothing checks them
before `Memory.expand` adds them up. `never_panics_iff` says that a run does not panic exactly when
every access of it is in bounds.

The other index and slice expressions of the loop stand behind a comparison, or are bounded by the
256 bits of a word. `Indexed` collects them, and they hold at every head (`Sound.indexed`): there is
a gap only between the comparisons in `uint64` and the numbers they stand for, which a code of less
than `2 ^ 63` bytes closes.
-/

namespace Blockz

open Effect

/-- `PUSH32` is the longest `PUSH`. -/
theorem OpCode.push_bounds {b : UInt8} {n : ℕ} (h : OpCode.ofByte b = .push n) :
    1 ≤ n ∧ n ≤ 32 := by
  unfold OpCode.ofByte at h
  split at h
  · next hrange =>
    have hle := UInt8.le_iff_toNat_le.mp hrange.2
    have hmax : (0x7f : UInt8).toNat = 0x7f := rfl
    obtain rfl := OpCode.push.inj h
    omega
  · split at h
    · cases h
    · split at h
      · cases h
      · split at h <;> cases h

theorem OpCode.dup_pos {b : UInt8} {n : ℕ} (h : OpCode.ofByte b = .dup n) : 1 ≤ n := by
  unfold OpCode.ofByte at h
  split at h
  · cases h
  · split at h
    · obtain rfl := OpCode.dup.inj h
      exact Nat.le_add_left _ _
    · split at h
      · cases h
      · split at h <;> cases h

namespace EVM

/-- The index and slice expressions of a round that do not concern the memory are within bounds: the
opcode, the operand of `PUSH`, the places that `DUP` and `SWAP` reach, and the padding of a word to
32 bytes. The ones behind a guard are evaluated when the guard lets the round go on. -/
structure Indexed (P : Primitives) (evm : EVM) : Prop where
  opcode : evm.pc.toNat < evm.code.length
  operand : ∀ n, evm.opcode = .push n → (step P evm).1 = .ok none →
    (evm.pc + 1).toNat = evm.pc.toNat + 1 ∧ evm.pc.toNat + 1 + n ≤ evm.code.length
  dup : ∀ n, evm.opcode = .dup n → (step P evm).1 = .ok none → 1 ≤ n ∧ n ≤ evm.stack.data.length
  swap : ∀ n, evm.opcode = .swap n → (step P evm).1 = .ok none → n < evm.stack.data.length
  padding : ∀ i, (Bytes.ofNat (evm.operand i)).length ≤ 32

/-- The run does not panic, and every other index or slice expression of it is within bounds. -/
structure NeverPanics (P : Primitives) (evm : EVM) : Prop where
  run : ∀ fuel p, (run P fuel evm).1 ≠ .panic p
  rounds : ∀ head, Reaches P evm head → head.Funded → Indexed P head

/-- Every instruction of the run accesses the memory in bounds. -/
def InBoundsThroughout (P : Primitives) (evm : EVM) : Prop :=
  ∀ head, Reaches P evm head → head.Funded → Accessible P head.opcode head

variable {P : Primitives} {evm head : EVM} {fuel : ℕ}

/-! ### What stands behind a guard -/

theorem toNat_pc_succ (h : evm.pc.toNat < evm.code.length) (hcode : evm.code.length < 2 ^ 63) :
    (evm.pc + 1).toNat = evm.pc.toNat + 1 := by
  have hone : (1 : UInt64).toNat = 1 := rfl
  rw [UInt64.toNat_add, hone]
  omega

/-- The comparison before the operand of a `PUSH` does not wrap. -/
theorem toNat_pc_add {n : ℕ} (hn : n ≤ 32) (h : evm.pc.toNat < evm.code.length)
    (hcode : evm.code.length < 2 ^ 63) :
    (evm.paid.pc + UInt64.ofNat n).toNat = evm.pc.toNat + 1 + n := by
  have hpaid : evm.paid.pc.toNat = evm.pc.toNat + 1 := toNat_pc_succ h hcode
  rw [UInt64.toNat_add, hpaid, UInt64.toNat_ofNat']
  omega

theorem Sound.indexed (hs : evm.Sound P) (h : evm.Funded) (hcode : evm.code.length < 2 ^ 63) :
    Indexed P evm where
  opcode := h.1
  operand n hop hok := by
    rw [step_of_funded h, hop] at hok
    refine ⟨toNat_pc_succ h.1 hcode, ?_⟩
    by_contra hbeyond
    have hguard : evm.paid.code.length < (evm.paid.pc + UInt64.ofNat n).toNat := by
      rw [toNat_pc_add (OpCode.push_bounds hop).2 h.1 hcode]
      exact Nat.not_le.mp hbeyond
    simp only [exec, pushOperand, if_pos hguard] at hok
    cases hok
  dup n hop hok := by
    rw [step_of_funded h, hop] at hok
    refine ⟨OpCode.dup_pos hop, ?_⟩
    by_contra hshort
    have hguard : evm.paid.stack.data.length < n := Nat.not_le.mp hshort
    rw [exec_dup_of_short hguard] at hok
    cases hok
  swap n hop hok := by
    rw [step_of_funded h, hop] at hok
    by_contra hshort
    have hguard : evm.paid.stack.data.length ≤ n := Nat.not_lt.mp hshort
    rw [exec_swap_of_short hguard] at hok
    cases hok
  padding := hs.words.length_le

/-! ### Panics -/

/-- The one way to panic, at one head. -/
theorem run_one_panics (hs : head.Sound P) {p : Panic} (h : (run P 1 head).1 = .panic p) :
    head.Funded ∧ ¬ Accessible P head.opcode head ∧ Memory.OfMemory p := by
  have hfunded : head.Funded := by
    by_contra hnot
    rw [run_of_unfunded hnot] at h
    split at h
    · cases h
    · cases h
  have hnext : (step P head).1 ≠ .ok none := by
    intro hnext
    rw [run_of_continued hfunded (Act.eq_mk_of_fst hnext)] at h
    cases h
  have hout : ¬ Accessible P head.opcode head := by
    intro hin
    have hreturns : (run P 1 head).1.Returns := by
      rw [run_of_last hfunded hnext, Outcome.returns_bind, step_of_funded hfunded]
      exact ⟨(exec_of_accessible hs.paid hin).1, fun _ _ => trivial⟩
    exact (Outcome.returns_iff.mp hreturns).1 p h
  obtain ⟨p', hp', hexec⟩ := exec_of_not_accessible (P := P) hs.paid.words hout
  rw [run_of_last hfunded hnext, step_of_funded hfunded, hexec] at h
  obtain rfl : p' = p := Outcome.panic.inj h
  exact ⟨hfunded, hout, hp'⟩

theorem run_panics_iff (hs : evm.Sound P) :
    (∀ fuel p, (run P fuel evm).1 ≠ .panic p) ↔ InBoundsThroughout P evm := by
  constructor
  · intro hnever head hreach hfunded
    by_contra hout
    have hsound := hreach.sound hs
    obtain ⟨es, hrun⟩ := hreach
    -- the run comes to the head and panics there
    obtain ⟨p, -, hp⟩ := exec_of_not_accessible (P := P) hsound.paid.words hout
    have hstep : (step P head).1 = .panic p := by
      rw [step_of_funded hfunded]
      exact hp
    have hnext : (step P head).1 ≠ .ok none := by
      rw [hstep]
      exact fun h => nomatch h
    apply hnever (es.length + 1) p
    rw [run_of_history hrun, run_of_last hfunded hnext, hstep]
    rfl
  · intro hin fuel p hp
    obtain ⟨head, hreach, hend | ⟨hend, -⟩⟩ := run_cases P fuel evm
    · rw [hend] at hp
      cases hp
    · rw [hend] at hp
      obtain ⟨hfunded, hout, -⟩ := run_one_panics (hreach.sound hs) hp
      exact hout (hin head hreach hfunded)

/-- A run that gas bounds and that does not panic returns. -/
theorem Metered.returns_iff (hm : evm.Metered) :
    (∃ fuel, (run P fuel evm).1.Returns) ↔ ∀ fuel p, (run P fuel evm).1 ≠ .panic p := by
  constructor
  · rintro ⟨fuel, hreturns⟩ fuel' p hp
    -- with fuel for both they are one run
    have hend' : (run P fuel' evm).1 ≠ .outOfFuel := by
      rw [hp]
      exact fun h => nomatch h
    have hmax := run_extends (P := P) (Nat.le_max_left fuel fuel') evm
      (Outcome.returns_iff.mp hreturns).2
    have hmax' := run_extends (P := P) (Nat.le_max_right fuel fuel') evm hend'
    rw [← hmax, hmax', hp] at hreturns
    exact hreturns
  · intro hnever
    exact ⟨_, Outcome.returns_iff.mpr ⟨hnever _, hm.halts (Nat.lt_succ_self _)⟩⟩

variable (P) in
/-- **When the machine does not panic.** Below the greatest gas limit, where gas bounds the run,
this is also when it returns a result or an error. -/
theorem never_panics_iff {code : List UInt8} (hcode : code.length < 2 ^ 63) (callData : List UInt8)
    (ws : WorldState) (contract caller : Address) (value : ℤ) (gasLimit : UInt64) :
    (NeverPanics P (newEVM code callData ws contract caller value gasLimit) ↔
        InBoundsThroughout P (newEVM code callData ws contract caller value gasLimit)) ∧
      (gasLimit.toNat < 2 ^ 64 - 1 →
        ((∃ fuel,
            (run P fuel (newEVM code callData ws contract caller value gasLimit)).1.Returns) ↔
          InBoundsThroughout P (newEVM code callData ws contract caller value gasLimit))) := by
  have hs := newEVM_sound P code callData ws contract caller value gasLimit
  have hpanics := run_panics_iff hs
  constructor
  · constructor
    · exact fun h => hpanics.mp h.run
    · intro hin
      refine ⟨hpanics.mpr hin, fun head hreach hfunded => ?_⟩
      apply (hreach.sound hs).indexed hfunded
      rw [hreach.frame.code]
      exact hcode
  · intro hlimit
    have hm : (newEVM code callData ws contract caller value gasLimit).Metered :=
      ⟨hlimit, Nat.zero_le _⟩
    rw [hm.returns_iff]
    exact hpanics

/-- A machine with a code and nothing else. -/
def bare (code : List UInt8) : EVM :=
  newEVM code [] WorldState.new Address.zero Address.zero 0 100

/-- `PUSH1 1; PUSH1 0; MSTORE` stays in bounds. -/
theorem never_panics_iff_mstore :
    ([0x60, 1, 0x60, 0, 0x52] : List UInt8).length < 2 ^ 63 ∧
      NeverPanics .sample (bare [0x60, 1, 0x60, 0, 0x52]) := by
  have hlen : ([0x60, 1, 0x60, 0, 0x52] : List UInt8).length < 2 ^ 63 := by decide
  obtain ⟨hnever, hreturns⟩ :=
    never_panics_iff .sample hlen [] WorldState.new Address.zero Address.zero 0 100
  have hrun : (run .sample 4 (bare [0x60, 1, 0x60, 0, 0x52])).1 = .ok [] := by decide +kernel
  refine ⟨hlen, hnever.mpr ((hreturns (by decide)).mp ⟨4, ?_⟩)⟩
  show (run .sample 4 (bare [0x60, 1, 0x60, 0, 0x52])).1.Returns
  rw [hrun]
  trivial

/-- **Three codes that panic.** `PUSH8 2^64-1; MLOAD` wraps the end of the slice to 31;
`PUSH8 2^63; MLOAD` asks for more memory than there is; `PUSH1 0; PUSH1 1; SHA3` reads no byte at
offset 1 of an empty memory. -/
theorem run_panics :
    (run .sample 9 (bare [0x67, 0xff, 0xff, 0xff, 0xff, 0xff, 0xff, 0xff, 0xff, 0x51])).1 =
        .panic .sliceBounds ∧
      (run .sample 9 (bare [0x67, 0x80, 0, 0, 0, 0, 0, 0, 0, 0x51])).1 = .panic .allocation ∧
      (run .sample 9 (bare [0x60, 0, 0x60, 1, 0x20])).1 = .panic .sliceBounds := by
  refine ⟨?_, ?_, ?_⟩ <;> decide +kernel

end EVM

end Blockz
