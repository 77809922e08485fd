import Blockz.Core.VMSafety

/-!
# Where jumps land

The linear disassembly of a code reads one instruction after the other from 0 on, and skips the
operand of each `PUSH` (`Boundary`). A run stays on these boundaries as long as it goes on from one
instruction to the next. A jump is only asked for a byte `0x5b` at its destination, which may as
well be a byte of an operand; and the destination is cut to 64 bits before it is looked at.

`jumpsLand_iff` says that every jump of a run lands on an instruction, and fails if there is none,
exactly when each jump that `isValidJumpDest` lets pass has a destination of at most 64 bits on a
boundary.
-/

namespace Blockz

open Effect

/-- The number of bytes of an instruction. -/
def OpCode.width : OpCode → ℕ
  | .push n => n + 1
  | _ => 1

theorem OpCode.width_pos (op : OpCode) : 1 ≤ op.width := by
  cases op
  case push n => exact Nat.le_add_left _ _
  all_goals exact le_rfl

theorem OpCode.width_eq_one {op : OpCode} (h : ∀ n, op ≠ .push n) : op.width = 1 := by
  cases op
  case push n => exact absurd rfl (h n)
  all_goals rfl

/-- The positions at which the linear disassembly from 0 comes to an instruction, or to the end. -/
inductive Boundary (code : List UInt8) : ℕ → Prop
  | start : Boundary code 0
  | next {i : ℕ} (here : Boundary code i) (inside : i < code.length) :
      Boundary code (i + (OpCode.ofByte (code.getD i 0)).width)

/-- **No boundary is inside an instruction.** -/
theorem Boundary.le_of_lt {code : List UInt8} {i j : ℕ} (hi : Boundary code i)
    (hj : Boundary code j)
    (hlt : i < j) : i + (OpCode.ofByte (code.getD i 0)).width ≤ j := by
  induction j using Nat.strong_induction_on generalizing i with
  | _ j ih =>
    cases hj with
    | start => exact absurd hlt (Nat.not_lt_zero i)
    | @next k hk hinside =>
      have hpos := OpCode.width_pos (OpCode.ofByte (code.getD k 0))
      rcases Nat.lt_trichotomy i k with hik | rfl | hki
      · exact le_trans (ih k (by omega) hi hk hik) (Nat.le_add_right _ _)
      · exact le_rfl
      · -- then `i` would be inside the instruction at `k`
        exact absurd (ih i hlt hk hi hki) (Nat.not_le.mpr hlt)

/-- A destination that a jump may have. -/
def JumpDest (code : List UInt8) (dest : ℕ) : Prop :=
  dest < code.length ∧ code.getD dest 0 = 0x5b ∧ Boundary code dest

namespace EVM

/-- The destination of a jump that is made: the word on top, in all its 256 bits. -/
def jumpTarget (op : OpCode) (evm : EVM) : Option ℕ :=
  match op with
  | .jump => some (evm.operand 0)
  | .jumpi => if evm.operand 1 = 0 then none else some (evm.operand 0)
  | _ => none

/-- **Jumps land on instructions.** Opcodes are fetched at boundaries, a jump to a `JUMPDEST` goes
there, and every other jump ends the run with an error. -/
structure JumpsLand (P : Primitives) (evm : EVM) : Prop where
  fetch : ∀ head, Reaches P evm head → head.pc.toNat < head.code.length →
    Boundary head.code head.pc.toNat
  lands : ∀ head, Reaches P evm head → head.Funded →
    ∀ dest, jumpTarget head.opcode head = some dest → JumpDest head.code dest →
      ∃ head', step P head = (.ok none, head') ∧ head'.pc.toNat = dest
  fails : ∀ es head, History (Continued P) evm es head → head.Funded →
    ∀ dest, jumpTarget head.opcode head = some dest → ¬ JumpDest head.code dest →
      ∃ e, (run P (es.length + 1) evm).1 = .err e

/-- If the jump at the head passes the check, its destination has at most 64 bits and is a
boundary. -/
def JumpsHonestly (head : EVM) : Prop :=
  ∀ dest, jumpTarget head.opcode head = some dest →
    head.isValidJumpDest (UInt64.ofNat dest) → dest < 2 ^ 64 ∧ Boundary head.code dest

variable {P : Primitives} {evm evm' head : EVM} {op : OpCode}

/-! ### The program counter -/

theorem exec_of_jumpTarget {dest : ℕ} (h : jumpTarget op evm = some dest) :
    ∃ n, exec P op evm = jumpTo (UInt64.ofNat dest) (evm.popped n) := by
  cases op <;> simp only [jumpTarget, reduceCtorEq] at h
  case jump =>
    obtain rfl := Option.some.inj h
    exact ⟨1, exec_jump P evm⟩
  case jumpi =>
    split at h
    · cases h
    · next hcond =>
      obtain rfl := Option.some.inj h
      exact ⟨2, by rw [exec_jumpi, if_neg hcond]⟩

/-- An instruction that is neither a `PUSH` nor a jump leaves the program counter alone. -/
theorem exec_pc (hs : evm.Sound P) (hin : Accessible P op evm) (hpush : ∀ n, op ≠ .push n)
    (hjump : jumpTarget op evm = none) : (exec P op evm).2.pc = evm.pc := by
  cases haccess : access op evm with
  | some a =>
    obtain ⟨o, stack, memory, retData, hexec, -, -⟩ := exec_of_inBounds hs haccess (hin a haccess)
    rw [hexec]
  | none =>
    by_cases hop : op.Plain
    · obtain ⟨o, stack, hexec, -⟩ := exec_plain (P := P) hs.words hop
      rw [hexec]
    · cases op
      case push n => exact absurd rfl (hpush n)
      case sstore => rw [exec_sstore_eq hs.words]; rfl
      case jump => cases hjump
      case jumpi =>
        have hcond : evm.operand 1 = 0 := by
          by_contra hcond
          rw [jumpTarget, if_neg hcond] at hjump
          cases hjump
        rw [exec_jumpi, if_pos hcond]
        rfl
      case sha3 | mload | mstore | mstore8 | ret | revert => cases haccess
      all_goals exact absurd trivial hop

/-! ### One jump -/

section Jump

variable {dest : ℕ} (h : head.Funded) (hjump : jumpTarget head.opcode head = some dest)

include h hjump

/-- A jump that passes the check goes to the low 64 bits of its destination. -/
theorem step_of_valid (hvalid : head.isValidJumpDest (UInt64.ofNat dest)) :
    ∃ head', step P head = (.ok none, head') ∧ head'.pc = UInt64.ofNat dest := by
  have htarget : jumpTarget head.opcode head.paid = some dest := hjump
  obtain ⟨n, hexec⟩ := exec_of_jumpTarget (P := P) htarget
  have hvalid' : (head.paid.popped n).isValidJumpDest (UInt64.ofNat dest) := hvalid
  refine ⟨{ head.paid.popped n with pc := UInt64.ofNat dest }, ?_, rfl⟩
  rw [step_of_funded h, hexec]
  unfold jumpTo
  rw [if_pos hvalid']

/-- Any other jump is an error. -/
theorem step_of_invalid (hinvalid : ¬ head.isValidJumpDest (UInt64.ofNat dest)) :
    (step P head).1 = .err (.invalidJump (UInt64.ofNat dest)) := by
  have htarget : jumpTarget head.opcode head.paid = some dest := hjump
  obtain ⟨n, hexec⟩ := exec_of_jumpTarget (P := P) htarget
  have hinvalid' : ¬ (head.paid.popped n).isValidJumpDest (UInt64.ofNat dest) := hinvalid
  rw [step_of_funded h, hexec]
  unfold jumpTo
  rw [if_neg hinvalid']

end Jump

/-! ### From boundary to boundary -/

/-- **A round goes from a boundary to a boundary.** -/
theorem boundary_step (hs : evm.Sound P) (hcode : evm.code.length < 2 ^ 63) (h : evm.Funded)
    (hhonest : evm.JumpsHonestly) (hstep : step P evm = (.ok none, evm'))
    (hpc : Boundary evm.code evm.pc.toNat) : Boundary evm.code evm'.pc.toNat := by
  have hnext : Boundary evm.code (evm.pc.toNat + evm.opcode.width) := hpc.next h.1
  -- a jump lands where the hypothesis has a boundary; all others go on to the next one
  cases hjump : jumpTarget evm.opcode evm with
  | some dest =>
    by_cases hvalid : evm.isValidJumpDest (UInt64.ofNat dest)
    · obtain ⟨head', hstep', hpc'⟩ := step_of_valid (P := P) h hjump hvalid
      obtain ⟨-, rfl⟩ := Prod.mk.inj (hstep.symm.trans hstep')
      obtain ⟨hlt, hboundary⟩ := hhonest dest hjump hvalid
      rw [hpc', UInt64.toNat_ofNat_of_lt' hlt]
      exact hboundary
    · have herr := step_of_invalid (P := P) h hjump hvalid
      rw [hstep] at herr
      cases herr
  | none =>
    have hin := (hs.step h hstep).1
    rw [step_of_funded h] at hstep
    by_cases hpush : ∃ n, evm.opcode = .push n
    · obtain ⟨n, hop⟩ := hpush
      rw [hop] at hstep hnext
      simp only [exec, pushOperand] at hstep
      split at hstep
      · cases hstep
      · obtain ⟨-, rfl⟩ := Prod.mk.inj hstep
        show Boundary evm.code (evm.paid.pc + UInt64.ofNat n).toNat
        rw [toNat_pc_add (OpCode.push_bounds hop).2 h.1 hcode, Nat.add_assoc, Nat.add_comm 1]
        exact hnext
    · have hother : ∀ n, evm.opcode ≠ .push n := fun n hop => hpush ⟨n, hop⟩
      have hsame := exec_pc hs.paid hin hother hjump
      have hsucc : evm.paid.pc.toNat = evm.pc.toNat + 1 := toNat_pc_succ h.1 hcode
      rw [OpCode.width_eq_one hother] at hnext
      rw [hstep] at hsame
      rw [hsame, hsucc]
      exact hnext

theorem isValidJumpDest_of_jumpDest {dest : ℕ} (hcode : head.code.length < 2 ^ 63)
    (h : JumpDest head.code dest) : head.isValidJumpDest (UInt64.ofNat dest) := by
  obtain ⟨hlt, hbyte, -⟩ := h
  have hword : dest < 2 ^ 64 := by omega
  unfold isValidJumpDest
  rw [UInt64.toNat_ofNat_of_lt' hword]
  exact ⟨hlt, hbyte⟩

/-! ### Every jump -/

/-- If all jumps of a run are honest, its heads are at boundaries. -/
theorem Reaches.boundary (hs : evm.Sound P) (hcode : evm.code.length < 2 ^ 63) (hstart : evm.pc = 0)
    (hhonest : ∀ head, Reaches P evm head → head.Funded → head.JumpsHonestly)
    (hreach : Reaches P evm head) : Boundary head.code head.pc.toNat := by
  rw [hreach.frame.code]
  refine hreach.invariant (I := fun s => Boundary evm.code s.pc.toNat) ?_ ?_
  · rw [hstart]
    exact Boundary.start
  · intro s s' hs' hboundary hfunded hstep
    have hsame := hs'.frame.code
    rw [← hsame] at hboundary hcode ⊢
    exact boundary_step (hs'.sound hs) hcode hfunded (hhonest s hs' hfunded) hstep hboundary

variable (P) in
/-- **When the jumps of a run land on instructions.** -/
theorem jumpsLand_iff {code : List UInt8} (hcode : code.length < 2 ^ 63) (callData : List UInt8)
    (ws : WorldState) (contract caller : Address) (value : ℤ) (gasLimit : UInt64) :
    JumpsLand P (newEVM code callData ws contract caller value gasLimit) ↔
      ∀ head, Reaches P (newEVM code callData ws contract caller value gasLimit) head →
        head.Funded → head.JumpsHonestly := by
  have hs := newEVM_sound P code callData ws contract caller value gasLimit
  have hlen : ∀ head, Reaches P (newEVM code callData ws contract caller value gasLimit) head →
      head.code.length < 2 ^ 63 := by
    intro head hreach
    rw [hreach.frame.code]
    exact hcode
  constructor
  · rintro ⟨-, -, hfails⟩ head hreach hfunded dest hjump hvalid
    have hdest : JumpDest head.code dest := by
      by_contra hnot
      obtain ⟨es, hrun⟩ := hreach
      obtain ⟨head', hstep, -⟩ := step_of_valid (P := P) hfunded hjump hvalid
      obtain ⟨e, he⟩ := hfails es head hrun hfunded dest hjump hnot
      -- the jump was made, so the run goes on
      rw [run_of_history hrun, run_of_continued hfunded hstep] at he
      cases he
    exact ⟨lt_trans hdest.1 (lt_trans (hlen head hreach) (by norm_num)), hdest.2.2⟩
  · intro hhonest
    refine ⟨fun head hreach _ => hreach.boundary hs hcode rfl hhonest, ?_, ?_⟩
    · intro head hreach hfunded dest hjump hdest
      have hvalid := isValidJumpDest_of_jumpDest (hlen head hreach) hdest
      obtain ⟨head', hstep, hpc⟩ := step_of_valid (P := P) hfunded hjump hvalid
      refine ⟨head', hstep, ?_⟩
      rw [hpc, UInt64.toNat_ofNat_of_lt' (hhonest head hreach hfunded dest hjump hvalid).1]
    · intro es head hrun hfunded dest hjump hnot
      have hinvalid : ¬ head.isValidJumpDest (UInt64.ofNat dest) := by
        intro hvalid
        obtain ⟨hlt, hboundary⟩ := hhonest head ⟨es, hrun⟩ hfunded dest hjump hvalid
        unfold isValidJumpDest at hvalid
        rw [UInt64.toNat_ofNat_of_lt' hlt] at hvalid
        exact hnot ⟨hvalid.1, hvalid.2, hboundary⟩
      have herr := step_of_invalid (P := P) hfunded hjump hinvalid
      have hlast : (step P head).1 ≠ .ok none := by
        rw [herr]
        exact fun h => nomatch h
      refine ⟨.invalidJump (UInt64.ofNat dest), ?_⟩
      rw [run_of_history hrun, run_of_last hfunded hlast, herr]
      rfl

/-- `PUSH1 3; JUMP; JUMPDEST`. -/
def forwardCode : List UInt8 := [0x60, 3, 0x56, 0x5b]

/-- The jump of `forwardCode` lands. -/
theorem jumpsLand_iff_forwardCode :
    forwardCode.length < 2 ^ 63 ∧ JumpsLand .sample (bare forwardCode) := by
  have hlen : forwardCode.length < 2 ^ 63 := by decide
  refine ⟨hlen,
    (jumpsLand_iff .sample hlen [] WorldState.new Address.zero Address.zero 0 100).mpr ?_⟩
  intro head hreach _ dest hjump _
  have hend : (run .sample 4 (bare forwardCode)).1 ≠ .outOfFuel := by decide +kernel
  -- the run has three rounds, and one of them jumps
  obtain ⟨n, hn, hrun⟩ := Reaches.within hreach hend
  have htargets : ∀ n < 4, jumpTarget (run .sample n (bare forwardCode)).2.opcode
      (run .sample n (bare forwardCode)).2 ∈ [none, some 3] := by decide +kernel
  have hthree : Boundary forwardCode 3 :=
    (Boundary.start.next (by decide)).next (by decide)
  have htarget := htargets n hn
  rw [show (run .sample n (bare forwardCode)).2 = head from congrArg Prod.snd hrun, hjump,
    List.mem_cons, List.mem_singleton] at htarget
  obtain rfl : dest = 3 := Option.some.inj (htarget.resolve_left fun h => nomatch h)
  refine ⟨by norm_num, ?_⟩
  rw [hreach.frame.code]
  exact hthree

/-- `PUSH1 4; JUMP; PUSH1 0x5b`: the destination is the operand of the second `PUSH`. -/
def hiddenCode : List UInt8 := [0x60, 4, 0x56, 0x60, 0x5b]

/-- `PUSH9 2^64+11; JUMP; JUMPDEST`: the destination is behind the end of the code. -/
def wrappedCode : List UInt8 := [0x68, 1, 0, 0, 0, 0, 0, 0, 0, 11, 0x56, 0x5b]

/-- **Two jumps that land where they should not.** -/
theorem jumps_astray :
    (∃ head, Reaches .sample (bare hiddenCode) head ∧ head.pc.toNat = 4 ∧
        head.pc.toNat < head.code.length ∧ ¬ Boundary hiddenCode 4) ∧
      ∃ head, Reaches .sample (bare wrappedCode) head ∧ head.Funded ∧
        jumpTarget head.opcode head = some (2 ^ 64 + 11) ∧ ¬ JumpDest wrappedCode (2 ^ 64 + 11) ∧
        (step .sample head).1 = .ok none := by
  constructor
  · have hrun : (run .sample 2 (bare hiddenCode)).1 = .outOfFuel := by decide +kernel
    refine ⟨_, reaches_iff.mpr ⟨2, Act.eq_mk_of_fst hrun⟩, by decide +kernel, by decide +kernel, ?_⟩
    intro hfour
    have hthree : Boundary hiddenCode 3 := (Boundary.start.next (by decide)).next (by decide)
    exact absurd (hthree.le_of_lt hfour (by decide)) (by decide)
  · have hrun : (run .sample 1 (bare wrappedCode)).1 = .outOfFuel := by decide +kernel
    refine ⟨_, reaches_iff.mpr ⟨1, Act.eq_mk_of_fst hrun⟩, by decide +kernel, by decide +kernel, ?_,
      by decide +kernel⟩
    exact fun h => absurd h.1 (by decide)

end EVM

end Blockz
