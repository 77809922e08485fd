import Blockz.Chain.Coherence

/-!
# Which difficulty is enforced

`Prepare` and `Seal` work towards the difficulty of the engine. `VerifyHeader` computes its target
from the `Difficulty` field of the header that it checks, and no code compares that field with the
difficulty of the engine. A header that claims no difficulty is accepted whatever its hash is.

* `meets_target_of_run` — if every submitted header claims at least the difficulty of the engine,
  every header that was added meets the target of the engine.
* `addBlock_accepts_unmined` — a header that misses the target and is accepted.
-/

namespace Blockz

open Effect

variable {P : Primitives}

/-- The target that `Seal` mines for. -/
def PoWEngine.sealTarget (P : Primitives) (pow : PoWEngine) : Except Panic ℕ :=
  PoWEngine.lsh P (256 - pow.targetDifficulty)

/-- The hash of the header, read as a number, is within the target of the engine. -/
def PoWEngine.MeetsTarget (P : Primitives) (pow : PoWEngine) (h : Header) : Prop :=
  ∃ target, pow.sealTarget P = .ok target ∧ (BlockHasher.hash P h).toNat ≤ target

/-- A header that passes the check, has a weight, and claims the difficulty of the engine or more,
meets the target of the engine. -/
theorem PoWEngine.meetsTarget_of_ok {pow : PoWEngine} {h : Header} {w : ℕ}
    (hverify : PoWEngine.verifyHeader P h = .ok ())
    (hweight : PoWEngine.calculateBlockWeight P h = .ok w)
    (hclaim : pow.targetDifficulty ≤ h.difficulty) : pow.MeetsTarget P h := by
  have hmax := PoWEngine.difficulty_le_of_ok hverify hweight
  have hle : pow.targetDifficulty.toNat ≤ h.difficulty.toNat := UInt64.le_iff_toNat_le.mp hclaim
  have hexponent := PoWEngine.toNat_exponent (d := pow.targetDifficulty) (by omega)
  refine ⟨2 ^ (256 - pow.targetDifficulty).toNat, ?_, ?_⟩
  · exact PoWEngine.lsh_of_le (by omega)
  · -- a higher claim means a smaller target
    calc (BlockHasher.hash P h).toNat
        ≤ 2 ^ (256 - h.difficulty).toNat := (PoWEngine.verifyHeader_eq_ok.mp hverify).2
      _ = 2 ^ (256 - h.difficulty.toNat) := by rw [PoWEngine.toNat_exponent hmax]
      _ ≤ 2 ^ (256 - pow.targetDifficulty.toNat) :=
        Nat.pow_le_pow_right Nat.two_pos (by omega)
      _ = 2 ^ (256 - pow.targetDifficulty).toNat := by rw [hexponent]

namespace Blockchain

variable {S : Type} [Storage P S]

/-- A call that came back, on a block whose header claims at least the difficulty `d`. -/
def CalledClaiming (P : Primitives) [Storage P S] (d : UInt64) (bc : Blockchain PoWEngine S)
    (b : Block) (o : Outcome Err Unit) (bc' : Blockchain PoWEngine S) : Prop :=
  o.Returns ∧ (∃ fuel, addBlock P fuel b bc = (o, bc')) ∧
    ∀ h, b.header = some h → d ≤ h.difficulty

/-- The engine is in place, and every header after the first meets its target. -/
structure Mined (P : Primitives) (pow : PoWEngine) (bc : Blockchain PoWEngine S) : Prop where
  engine : bc.consensus = some pow
  nonempty : 0 < bc.headers.length
  meets : ∀ i h, 1 ≤ i → bc.headers[i]? = some h → pow.MeetsTarget P h

omit [Storage P S] in
theorem Valid.verifyHeader_pow {bc : Blockchain PoWEngine S} {b : Block} {h : Header}
    {c' : Option PoWEngine} {pow : PoWEngine} (valid : Valid P bc b h c')
    (hengine : bc.consensus = some pow) : PoWEngine.verifyHeader P h = .ok () := by
  obtain ⟨_, _, hverify⟩ := valid.consensus_of_some hengine
  exact (Prod.mk.inj hverify).1

theorem Mined.called {pow : PoWEngine} {bc bc' : Blockchain PoWEngine S} {b : Block}
    {o : Outcome Err Unit} (hbc : Mined P pow bc)
    (hcall : CalledClaiming P pow.targetDifficulty bc b o bc') : Mined P pow bc' := by
  obtain ⟨hreturns, ⟨fuel, hcall⟩, hclaim⟩ := hcall
  have hstep := AddStep.of_call hcall
  have hengine := hstep.consensus_eq.trans hbc.engine
  cases hstep with
  | invalid _ _ => exact ⟨hengine, hbc.nonempty, hbc.meets⟩
  | aborted _ _ _ => exact ⟨hengine, hbc.nonempty, hbc.meets⟩
  | crashed _ _ _ => exact absurd hreturns (Outcome.not_returns_panic _)
  | @appended c' h ws total _ _ valid _ weight _ =>
    obtain rfl := valid.consensus_eq
    have hbefore : (bc.withBlock P b h bc.consensus ws).consensus = some pow := hbc.engine
    obtain ⟨-, w, -, hw, -⟩ := nextDifficulty_pow (by rw [hbefore]; rfl) weight
    have hnew := PoWEngine.meetsTarget_of_ok (valid.verifyHeader_pow hbc.engine) hw
      (hclaim h valid.header)
    refine ⟨hengine, ?_, ?_⟩
    · change 0 < (bc.headers ++ [h]).length
      rw [List.length_append]
      exact Nat.add_pos_left hbc.nonempty _
    · intro i x hi hx
      rcases getElem?_concat_cases hx with hold | ⟨-, rfl⟩
      · exact hbc.meets i x hi hold
      · exact hnew

/-- **When proof of work is enforced.** Start from a chain of one header with the engine
`NewPoWEngine(d)`. In every run of calls that came back and whose blocks all claim at least `d`,
every added header meets the target of the engine. -/
theorem meets_target_of_run {d : UInt64} (hpos : 1 ≤ d)
    {bc₀ bc : Blockchain PoWEngine S} {es : List (Block × Outcome Err Unit)}
    (hfresh : bc₀.headers.length = 1)
    (hengine : bc₀.consensus = some (PoWEngine.newPoWEngine d))
    (hrun : History (CalledClaiming P d) bc₀ es bc) :
    ∀ i h, 1 ≤ i → bc.headers[i]? = some h → (PoWEngine.newPoWEngine d).MeetsTarget P h := by
  have htarget : (PoWEngine.newPoWEngine d).targetDifficulty = d := by
    have hne : d ≠ 0 := by
      rintro rfl
      exact absurd hpos (by decide)
    exact if_neg hne
  have hstart : Mined P (PoWEngine.newPoWEngine d) bc₀ := by
    refine ⟨hengine, by omega, fun i h hi hh => ?_⟩
    have hlt := (List.getElem?_eq_some_iff.mp hh).1
    omega
  have hbc : Mined P (PoWEngine.newPoWEngine d) bc := by
    refine hrun.invariant (Mined P (PoWEngine.newPoWEngine d)) hstart ?_
    intro bc b o bc' hbc hcall
    exact hbc.called (by rwa [htarget])
  exact hbc.meets

/-- A first header that claims one bit; the block on top of it copies the claim, and its hash is
below `2 ^ 255`. -/
def claimingGenesis : Header := { sampleGenesis with difficulty := 1, nonce := 2 }

def claimingChain : Blockchain PoWEngine MemoryStore :=
  { sampleChain with
    headers := [claimingGenesis]
    consensus := some (PoWEngine.newPoWEngine 1) }

def claimingBlock : Block := sampleBlock claimingGenesis [] (sampleAddress 1)

/-- A run of that block. -/
theorem meets_target_of_run_claimingBlock :
    (addBlock .sample 1 claimingBlock claimingChain).1 = .ok () ∧
      ∀ i h, 1 ≤ i → (addBlock .sample 1 claimingBlock claimingChain).2.headers[i]? = some h →
        (PoWEngine.newPoWEngine 1).MeetsTarget .sample h := by
  have hok : (addBlock .sample 1 claimingBlock claimingChain).1 = .ok () := by decide +kernel
  have hcall : CalledClaiming .sample 1 claimingChain claimingBlock (.ok ())
      (addBlock .sample 1 claimingBlock claimingChain).2 := by
    refine ⟨trivial, ⟨1, Act.eq_mk_of_fst hok⟩, fun h hh => ?_⟩
    obtain rfl := Option.some.inj hh
    exact UInt64.le_refl 1
  have hrun : History (CalledClaiming .sample 1) claimingChain [(claimingBlock, .ok ())] _ :=
    .call .start hcall
  have hfresh : claimingChain.headers.length = 1 := rfl
  exact ⟨hok, meets_target_of_run (UInt64.le_refl 1) hfresh rfl hrun⟩

/-- The strictest engine. -/
def strictChain : Blockchain PoWEngine MemoryStore :=
  { sampleChain with consensus := some (PoWEngine.newPoWEngine 256) }

/-- **An unmined header is accepted.** The engine asks for 256 bits, so that its target is 1. The
header claims no difficulty, its hash is above the target, and the block is added. -/
theorem addBlock_accepts_unmined :
    (PoWEngine.newPoWEngine 256).sealTarget .sample = .ok 1 ∧
      (addBlock .sample 1 minedBlock strictChain).1 = .ok () ∧
      (addBlock .sample 1 minedBlock strictChain).2.headers[1]? =
        some (sampleHeader sampleGenesis [] (sampleAddress 1)) ∧
      1 < (BlockHasher.hash .sample (sampleHeader sampleGenesis [] (sampleAddress 1))).toNat := by
  decide +kernel

end Blockchain

end Blockz
