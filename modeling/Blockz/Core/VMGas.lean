import Blockz.Core.VMTrace
import Blockz.Framework.Footprint

/-!
# The gas limit and the run

Two runs of one code that differ in their gas limits go through the same machines, as long as both
can pay. Instructions do not see the limit (`exec_withLimit`), and the one comparison that does is
made at the head of the loop. So a run that did not end for lack of gas is the same under every
larger limit (`run_withLimit`), and a limit below the gas that it used is too little (`run_below`).

The limit is compared with a sum that may wrap, but this makes no difference here: whatever the sum
is, a larger limit is not exceeded where a smaller one is not.
-/

namespace Blockz

open Effect

namespace EVM

/-- The machine under another gas limit. -/
def withLimit (evm : EVM) (limit : UInt64) : EVM := { evm with gasLimit := limit }

/-- The error of `consumeGas`. -/
def OutOfGas {α : Type} (o : Outcome Err α) : Prop := ∃ used limit, o = .err (.outOfGas used limit)

variable {P : Primitives} {evm : EVM} {limit : UInt64} {fuel : ℕ}

/-! ### Instructions -/

/-- One machine under two limits. -/
def SameButLimit (limit : UInt64) (evm evm' : EVM) : Prop := evm' = evm.withLimit limit

/-- A call that does the same under both. -/
theorem respects_of_eq {α : Type} {m : Act EVM Err α}
    (hm : ∀ evm, m (evm.withLimit limit) = ((m evm).1, (m evm).2.withLimit limit)) :
    Act.Respects (SameButLimit limit) m := by
  rintro evm _ rfl
  rw [hm]
  exact ⟨rfl, rfl⟩

/-- So does a guarded one, if its guard does not read the limit. -/
theorem respects_of_guard {α : Type} {c : EVM → Prop} [DecidablePred c] {m m' : Act EVM Err α}
    (hc : ∀ evm, c evm ↔ c (evm.withLimit limit))
    (hm : ∀ evm, m (evm.withLimit limit) = ((m evm).1, (m evm).2.withLimit limit))
    (hm' : ∀ evm, m' (evm.withLimit limit) = ((m' evm).1, (m' evm).2.withLimit limit)) :
    Act.Respects (SameButLimit limit) fun evm => if c evm then m evm else m' evm := by
  refine Act.Respects.ite ?_ (respects_of_eq hm) (respects_of_eq hm')
  rintro evm _ rfl
  exact hc evm

theorem limit_rules (limit : UInt64) : Rules P (Act.Respects (SameButLimit limit)) where
  pure := Act.Respects.pure
  fail _ := Act.Respects.lift _
  bind := Act.Respects.bind
  storageKey _ := Act.Respects.lift _
  load keyHash _ hf := by
    refine Act.Respects.read (g := fun evm => evm.load keyHash) ?_ hf
    rintro evm _ rfl
    rfl
  value hf := by
    refine Act.Respects.read (g := EVM.value) ?_ hf
    rintro evm _ rfl
    rfl
  callData hf := by
    refine Act.Respects.read (g := EVM.callData) ?_ hf
    rintro evm _ rfl
    rfl
  pop := respects_of_eq fun _ => rfl
  push _ := respects_of_eq fun _ => rfl
  memoryGet _ _ := respects_of_eq fun _ => rfl
  memorySet _ _ _ := respects_of_eq fun _ => rfl
  memorySet32 _ _ := respects_of_eq fun _ => rfl
  retData _ := respects_of_eq fun _ => rfl
  -- the guards of the other four read the code and the stack
  jumpTo _ := respects_of_guard (fun _ => Iff.rfl) (fun _ => rfl) fun _ => rfl
  pushOperand _ := respects_of_guard (fun _ => Iff.rfl) (fun _ => rfl) fun _ => rfl
  dupWord _ := respects_of_guard (fun _ => Iff.rfl) (fun _ => rfl) fun _ => rfl
  swapWord _ := respects_of_guard (fun _ => Iff.rfl) (fun _ => rfl) fun _ => rfl

/-- **Instructions do not see the limit.** -/
theorem exec_withLimit (op : OpCode) (evm : EVM) (limit : UInt64) :
    exec P op (evm.withLimit limit) =
      ((exec P op evm).1, (exec P op evm).2.withLimit limit) := by
  have hrespects := (limit_rules (P := P) limit).execAll
    (fun _ _ => respects_of_eq fun _ => rfl) op
  obtain ⟨hout, hstate⟩ := hrespects evm _ rfl
  exact Prod.ext hout.symm hstate

theorem step_withLimit (h : evm.Funded) (h' : (evm.withLimit limit).Funded) :
    step P (evm.withLimit limit) = ((step P evm).1, (step P evm).2.withLimit limit) := by
  rw [step_of_funded h, step_of_funded h']
  exact exec_withLimit evm.opcode evm.paid limit

/-! ### Runs -/

/-- Where a limit suffices for a round, so does a larger one. -/
theorem Funded.mono (h : evm.Funded) (hle : evm.gasLimit ≤ limit) : (evm.withLimit limit).Funded :=
  ⟨h.1, UInt64.le_trans h.2 hle⟩

/-- **A larger limit changes nothing**, unless the run ended for lack of gas. -/
theorem run_withLimit (hle : evm.gasLimit ≤ limit) (hend : (run P fuel evm).1 ≠ .outOfFuel)
    (hgas : ¬ OutOfGas (run P fuel evm).1) :
    run P fuel (evm.withLimit limit) =
      ((run P fuel evm).1, (run P fuel evm).2.withLimit limit) := by
  induction fuel generalizing evm with
  | zero => exact absurd rfl hend
  | succ fuel ih =>
    by_cases h : evm.Funded
    · have hstep := step_withLimit (P := P) h (h.mono hle)
      by_cases hnext : (step P evm).1 = .ok none
      · have hround := Act.eq_mk_of_fst hnext
        have hlimit : (step P evm).2.gasLimit = evm.gasLimit := (step_moves evm).gasLimit
        rw [hnext] at hstep
        rw [run_of_continued h hround] at hend hgas ⊢
        rw [run_of_continued (h.mono hle) hstep]
        apply ih _ hend hgas
        rw [hlimit]
        exact hle
      · have hnext' : (step P (evm.withLimit limit)).1 ≠ .ok none := by
          rw [hstep]
          exact hnext
        rw [run_of_last h hnext, run_of_last (h.mono hle) hnext', hstep]
    · -- the loop ends by its condition
      have hpc : ¬ evm.pc.toNat < evm.code.length := by
        intro hpc
        apply hgas
        rw [run_of_unfunded h, if_pos hpc]
        exact ⟨_, _, rfl⟩
      have h' : ¬ (evm.withLimit limit).Funded := fun h' => hpc h'.1
      have hpc' : ¬ (evm.withLimit limit).pc.toNat < (evm.withLimit limit).code.length := hpc
      rw [run_of_unfunded h, run_of_unfunded h', if_neg hpc, if_neg hpc']
      rfl

/-- **A limit below the gas used is too little.** The counter starts at or below the limit and goes
up by one, so it meets the limit before it gets past it. -/
theorem run_below (hused : evm.gasUsed ≤ limit) (hbelow : limit < (run P fuel evm).2.gasUsed) :
    OutOfGas (run P fuel (evm.withLimit limit)).1 := by
  induction fuel generalizing evm with
  | zero => exact absurd hused (UInt64.not_le.mpr hbelow)
  | succ fuel ih =>
    by_cases h : evm.Funded
    · by_cases hpaid : evm.gasUsed + 1 ≤ limit
      · have h' : (evm.withLimit limit).Funded := ⟨h.1, hpaid⟩
        have hstep := step_withLimit (P := P) h h'
        have hcount : (step P evm).2.gasUsed = evm.gasUsed + 1 := by
          rw [step_of_funded h]
          exact (exec_sameGas evm.opcode evm.paid).1
        by_cases hnext : (step P evm).1 = .ok none
        · rw [hnext] at hstep
          rw [run_of_continued h (Act.eq_mk_of_fst hnext)] at hbelow
          rw [run_of_continued h' hstep]
          apply ih _ hbelow
          rw [hcount]
          exact hpaid
        · rw [(run_of_halted h hnext).1, hcount] at hbelow
          exact absurd hpaid (UInt64.not_le.mpr hbelow)
      · -- the limit is reached
        have h' : ¬ (evm.withLimit limit).Funded := fun h' => hpaid h'.2
        have hpc : (evm.withLimit limit).pc.toNat < (evm.withLimit limit).code.length := h.1
        rw [run_of_unfunded h', if_pos hpc]
        exact ⟨_, _, rfl⟩
    · rw [run_of_unfunded h] at hbelow
      exact absurd hused (UInt64.not_le.mpr hbelow)

/-- **Gas monotonicity.** A run that ends, and not for lack of gas, ends in the same way under every
larger limit; under every limit below the gas that it used it runs out of gas. -/
theorem run_gas_monotone {code callData : List UInt8} {ws : WorldState} {contract caller : Address}
    {value : ℤ} {gasLimit : UInt64} {fuel : ℕ} {o : Outcome Err (List UInt8)} {final : EVM}
    (hrun : run P fuel (newEVM code callData ws contract caller value gasLimit) = (o, final))
    (hend : o ≠ .outOfFuel) (hgas : ¬ OutOfGas o) :
    (∀ more, gasLimit ≤ more → ∃ final',
      run P fuel (newEVM code callData ws contract caller value more) = (o, final') ∧
        final'.state = final.state ∧ final'.retData = final.retData ∧
        final'.gasUsed = final.gasUsed) ∧
      ∀ less, less < final.gasUsed →
        OutOfGas (run P fuel (newEVM code callData ws contract caller value less)).1 := by
  have hout : (run P fuel (newEVM code callData ws contract caller value gasLimit)).1 = o := by
    rw [hrun]
  have hfinal :
      (run P fuel (newEVM code callData ws contract caller value gasLimit)).2 = final := by
    rw [hrun]
  constructor
  · intro more hle
    have hsame : run P fuel (newEVM code callData ws contract caller value more) = _ :=
      run_withLimit hle (hout ▸ hend) (hout ▸ hgas)
    rw [hrun] at hsame
    exact ⟨final.withLimit more, hsame, rfl, rfl, rfl⟩
  · intro less hless
    have hstart : (newEVM code callData ws contract caller value gasLimit).gasUsed ≤ less :=
      UInt64.zero_le
    exact run_below hstart (hfinal ▸ hless)

/-- `PUSH1 7; PUSH1 1; SSTORE` takes three units: three are as good as any number, and two are too
few. -/
theorem run_gas_monotone_sstore :
    (∀ more, 3 ≤ more → ∃ final, run .sample 4 (newEVM [0x60, 7, 0x60, 1, 0x55] [] WorldState.new
        Address.zero Address.zero 0 more) = (.ok [], final) ∧ final.gasUsed = 3) ∧
      OutOfGas (run .sample 4 (newEVM [0x60, 7, 0x60, 1, 0x55] [] WorldState.new Address.zero
        Address.zero 0 2)).1 := by
  have hok : (run .sample 4 (newEVM [0x60, 7, 0x60, 1, 0x55] [] WorldState.new Address.zero
      Address.zero 0 3)).1 = .ok [] := by decide +kernel
  have hused : (run .sample 4 (newEVM [0x60, 7, 0x60, 1, 0x55] [] WorldState.new Address.zero
      Address.zero 0 3)).2.gasUsed = 3 := by decide +kernel
  have hgas : ¬ OutOfGas (.ok [] : Outcome Err (List UInt8)) := by
    rintro ⟨used, limit, h⟩
    cases h
  obtain ⟨hmore, hless⟩ := run_gas_monotone (Act.eq_mk_of_fst hok) (fun h => nomatch h) hgas
  constructor
  · intro more hle
    obtain ⟨final, hrun, -, -, hgas⟩ := hmore more hle
    exact ⟨final, hrun, hgas.trans hused⟩
  · apply hless
    rw [hused]
    decide

end EVM

end Blockz
