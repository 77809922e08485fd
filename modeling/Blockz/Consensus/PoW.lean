import Blockz.Core.Blockchain

/-!
# Proof of work

`consensus/pow.go`. The engine reads a hash as a 256-bit number and compares it with a power of
two whose exponent comes from the `Difficulty` field of the header that is being checked.

* `PoWEngine.verifyHeader_eq_ok` — what an accepted header satisfies.
* `PoWEngine.difficulty_le_of_ok` — a header that passes the check *and* has a weight claims at
  most 256 bits. The exponent `256 - Difficulty` is computed in `uint64`: above 256 bits it wraps,
  and then it and the exponent of the weight cannot both be small enough to allocate.
-/

namespace Blockz

open Effect

/-- `consensus.PoWEngine`. -/
structure PoWEngine where
  targetDifficulty : UInt64
  deriving DecidableEq, Repr

namespace PoWEngine

def defaultDifficulty : UInt64 := 16

/-- `NewPoWEngine`. -/
def newPoWEngine (difficulty : UInt64) : PoWEngine where
  targetDifficulty := if difficulty = 0 then defaultDifficulty else difficulty

variable (P : Primitives)

/-- `new(big.Int).Lsh(big.NewInt(1), s)`. The result takes `s / 64 + 2` words, and `math/big`
allocates four more. -/
def lsh (s : UInt64) : Except Panic ℕ :=
  if 8 * (s.toNat / 64 + 6) ≤ P.maxAlloc then .ok (2 ^ s.toNat) else .error .allocation

/-- `PoWEngine.VerifyHeader`. The receiver is not read: the target is the header's own. -/
def verifyHeader (h : Header) : Outcome Err Unit := do
  let target ← Outcome.ofExcept (lsh P (256 - h.difficulty))
  Outcome.require ((BlockHasher.hash P h).toNat ≤ target)
    (.difficultyNotMet (BlockHasher.hash P h) h.difficulty)

/-- `PoWEngine.Prepare`. -/
def prepare (pow : PoWEngine) (h : Header) : Header := { h with difficulty := pow.targetDifficulty }

/-- The loop of `PoWEngine.Seal`, for at most `fuel` rounds. `late` is the answer of the clock when
the counter has reached a value; it is asked at every hundred thousandth. -/
def mine (late : UInt64 → Bool) (target : ℕ) (h : Header) : ℕ → UInt64 → Outcome Err Header
  | 0, _ => .outOfFuel
  | fuel + 1, n =>
    -- `math.MaxUint64`
    if n < 18446744073709551615 then
      if (BlockHasher.hash P { h with nonce := n }).toNat ≤ target then .ok { h with nonce := n }
      else if (n + 1) % 100000 = 0 ∧ late (n + 1) = true then .err .miningTimedOut
      else mine late target h fuel (n + 1)
    else .err .nonceNotFound

/-- `PoWEngine.Seal`: the header with the nonce that was found. -/
def sealBlock (pow : PoWEngine) (late : UInt64 → Bool) (fuel : ℕ) (h : Header) :
    Outcome Err Header := do
  let target ← Outcome.ofExcept (lsh P (256 - pow.targetDifficulty))
  mine P late target h fuel 0

/-- `PoWEngine.CalculateBlockWeight`. -/
def calculateBlockWeight (h : Header) : Except Panic ℕ := lsh P h.difficulty

instance : ConsensusEngine P PoWEngine where
  verifyHeader h := Act.lift (verifyHeader P h)
  slash := none
  calculateBlockWeight := some fun _ h => calculateBlockWeight P h

variable {P}

theorem lsh_eq_ok {s : UInt64} {n : ℕ} :
    lsh P s = .ok n ↔ 8 * (s.toNat / 64 + 6) ≤ P.maxAlloc ∧ 2 ^ s.toNat = n := by
  unfold lsh
  split <;> simp_all

/-- Shifts by at most 256 bits are always served. -/
theorem lsh_of_le {s : UInt64} (hs : s.toNat ≤ 256) : lsh P s = .ok (2 ^ s.toNat) := by
  have hmem := P.le_maxAlloc
  exact lsh_eq_ok.mpr ⟨by omega, rfl⟩

theorem verifyHeader_eq_ok {h : Header} :
    verifyHeader P h = .ok () ↔
      8 * ((256 - h.difficulty).toNat / 64 + 6) ≤ P.maxAlloc ∧
        (BlockHasher.hash P h).toNat ≤ 2 ^ (256 - h.difficulty).toNat := by
  unfold verifyHeader
  rw [Outcome.bind_eq_ok]
  constructor
  · rintro ⟨target, htarget, hle⟩
    obtain ⟨hmem, rfl⟩ := lsh_eq_ok.mp (Outcome.ofExcept_eq_ok.mp htarget)
    exact ⟨hmem, Outcome.require_eq_ok.mp hle⟩
  · rintro ⟨hmem, hle⟩
    have htarget := lsh_eq_ok.mpr ⟨hmem, rfl⟩
    exact ⟨_, Outcome.ofExcept_eq_ok.mpr htarget, Outcome.require_eq_ok.mpr hle⟩

/-- **No accepted header claims more than 256 bits**, unless its weight panics. -/
theorem difficulty_le_of_ok {h : Header} {w : ℕ} (hverify : verifyHeader P h = .ok ())
    (hweight : calculateBlockWeight P h = .ok w) : h.difficulty.toNat ≤ 256 := by
  by_contra hlt
  have hmax := P.maxAlloc_le
  obtain ⟨htarget, -⟩ := verifyHeader_eq_ok.mp hverify
  obtain ⟨hw, -⟩ := lsh_eq_ok.mp hweight
  -- beyond 256 bits the two exponents add up to more than `2 ^ 64`
  have hwrap : (256 - h.difficulty).toNat + h.difficulty.toNat = 2 ^ 64 + 256 := by
    have hbound := h.difficulty.toNat_lt
    rw [UInt64.toNat_sub]
    have h256 : (256 : UInt64).toNat = 256 := rfl
    rw [h256]
    omega
  omega

/-- Up to 256 bits nothing wraps. -/
theorem toNat_exponent {d : UInt64} (hd : d.toNat ≤ 256) : (256 - d).toNat = 256 - d.toNat := by
  have hle : d ≤ 256 := UInt64.le_iff_toNat_le.mpr hd
  rw [UInt64.toNat_sub_of_le _ _ hle]
  rfl

end PoWEngine

end Blockz
