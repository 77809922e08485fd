import Blockz.Chain.ProofOfWork
import Blockz.Chain.Production

/-!
# What a difficulty means

A difficulty is a number of bits: a header of difficulty `k` is to have a hash with `k` zero bits in
front. `VerifyHeader` builds a target by a shift and compares; `Seal` builds one by the same shift
from the difficulty of the engine and looks for a nonce.

* `meansLeadingZeros_iff` — the comparison is the number of leading zeros, except in two cases. The
  comparison is not strict, so the hash that is equal to the target passes, which has one zero too
  few. Above 256 the exponent of the shift wraps: the target is then too large for every hash to
  miss, or too large to be allocated.
* `sealBlock_agrees` — what was sealed is accepted by the check, and the nonce is the first one that
  the loop could have found. That holds for every hash function, since both sides build one target.
-/

namespace Blockz

open Effect

theorem Hash.toNat_lt (h : Hash) : h.toNat < 2 ^ 256 := by
  have hlt := Bytes.toNat_lt h.bytes
  rw [h.length_eq] at hlt
  calc h.toNat < 256 ^ 32 := hlt
    _ = 2 ^ 256 := by norm_num

namespace PoWEngine

variable {P : Primitives}

/-! ### The check -/

/-- As a string of 256 bits the number opens with `k` zeros. -/
def HasLeadingZeros (n k : ℕ) : Prop := k ≤ 256 ∧ n < 2 ^ (256 - k)

instance (n k : ℕ) : Decidable (HasLeadingZeros n k) := inferInstanceAs (Decidable (_ ∧ _))

/-- What `VerifyHeader` is there for: it comes back, it accepts the headers with as many leading
zeros as they claim, and such a header has its weight. -/
structure MeansLeadingZeros (P : Primitives) (h : Header) : Prop where
  returns : (verifyHeader P h).Returns
  accepts_iff : verifyHeader P h = .ok () ↔
    HasLeadingZeros (BlockHasher.hash P h).toNat h.difficulty.toNat
  weight : verifyHeader P h = .ok () →
    calculateBlockWeight P h = .ok (2 ^ h.difficulty.toNat)

/-- Above 256 bits the exponent of the target is above 256. -/
theorem lt_exponent {d : UInt64} (hd : 256 < d.toNat) : 256 < (256 - d).toNat := by
  have hlt := d.toNat_lt
  rw [UInt64.toNat_sub]
  have h256 : (256 : UInt64).toNat = 256 := rfl
  rw [h256]
  omega

/-- Up to 256 bits the check is a comparison. -/
theorem verifyHeader_of_le {h : Header} (hd : h.difficulty.toNat ≤ 256) :
    verifyHeader P h =
      Outcome.require ((BlockHasher.hash P h).toNat ≤ 2 ^ (256 - h.difficulty.toNat))
        (.difficultyNotMet (BlockHasher.hash P h) h.difficulty) := by
  have hexponent := toNat_exponent hd
  have hshift : lsh P (256 - h.difficulty) = .ok (2 ^ (256 - h.difficulty.toNat)) := by
    rw [lsh_of_le (by omega), hexponent]
  unfold verifyHeader
  rw [hshift]
  rfl

/-- **When the difficulty is the number of leading zeros.** -/
theorem meansLeadingZeros_iff (P : Primitives) (h : Header) :
    MeansLeadingZeros P h ↔
      h.difficulty.toNat ≤ 256 ∧
        (BlockHasher.hash P h).toNat ≠ 2 ^ (256 - h.difficulty.toNat) := by
  constructor
  · rintro ⟨hreturns, haccepts, -⟩
    have hle : h.difficulty.toNat ≤ 256 := by
      by_contra hgt
      -- no hash is above a target of more than 256 bits
      have hbig : (BlockHasher.hash P h).toNat ≤ 2 ^ (256 - h.difficulty).toNat := by
        calc (BlockHasher.hash P h).toNat
            ≤ 2 ^ 256 := (Hash.toNat_lt _).le
          _ ≤ 2 ^ (256 - h.difficulty).toNat :=
            Nat.pow_le_pow_right Nat.two_pos (lt_exponent (Nat.not_le.mp hgt)).le
      have hmem : 8 * ((256 - h.difficulty).toNat / 64 + 6) ≤ P.maxAlloc := by
        by_contra hlarge
        unfold verifyHeader lsh at hreturns
        rw [if_neg hlarge] at hreturns
        exact hreturns
      exact hgt (haccepts.mp (verifyHeader_eq_ok.mpr ⟨hmem, hbig⟩)).1
    refine ⟨hle, fun heq => ?_⟩
    have hok : verifyHeader P h = .ok () := by
      rw [verifyHeader_of_le hle]
      exact Outcome.require_eq_ok.mpr heq.le
    exact absurd heq (haccepts.mp hok).2.ne
  · rintro ⟨hle, hne⟩
    refine ⟨?_, ?_, fun _ => lsh_of_le hle⟩
    · rw [verifyHeader_of_le hle]
      exact Outcome.returns_require
    · rw [verifyHeader_of_le hle, Outcome.require_eq_ok]
      constructor
      · exact fun hmeets => ⟨hle, lt_of_le_of_ne hmeets hne⟩
      · exact fun hzeros => hzeros.2.le

/-- Primitives whose digest is `2 ^ 255` throughout. -/
def halfway : Primitives :=
  { Primitives.sample with sha256 := fun _ => ⟨0x80 :: List.replicate 31 0, rfl⟩ }

/-- **Three headers that are judged wrongly.** The first claims more bits than there are; every hash
passes, and the weight cannot be allocated. With 257 bits it is the target that cannot be allocated.
The hash of the third has no leading zero, and it passes as one that has. -/
theorem verifyHeader_misjudges :
    (verifyHeader .sample { sampleGenesis with difficulty := 18446744073709551615 } = .ok () ∧
      ¬ HasLeadingZeros (BlockHasher.hash .sample
        { sampleGenesis with difficulty := 18446744073709551615 }).toNat 18446744073709551615 ∧
      calculateBlockWeight .sample { sampleGenesis with difficulty := 18446744073709551615 } =
        .error .allocation) ∧
      verifyHeader .sample { sampleGenesis with difficulty := 257 } = .panic .allocation ∧
      verifyHeader halfway { sampleGenesis with difficulty := 1 } = .ok () ∧
        ¬ HasLeadingZeros (BlockHasher.hash halfway { sampleGenesis with difficulty := 1 }).toNat
          1 := by
  refine ⟨⟨?_, ?_, ?_⟩, ?_, ?_, ?_⟩ <;> decide +kernel

/-! ### The search -/

/-- What `Prepare` and then `Seal` make of a header: the check accepts it, only the difficulty and
the nonce have been written, and the nonce is the first that meets the target. -/
structure SealedFirst (P : Primitives) (pow : PoWEngine) (h h' : Header) : Prop where
  verified : verifyHeader P h' = .ok ()
  fields : h' = { h with difficulty := pow.targetDifficulty, nonce := h'.nonce }
  nonce_lt : h'.nonce.toNat < 2 ^ 64 - 1
  meets : pow.MeetsTarget P h'
  first : ∀ n < h'.nonce, ¬ pow.MeetsTarget P { h' with nonce := n }

theorem meetsTarget_iff {pow : PoWEngine} (hd : pow.targetDifficulty.toNat ≤ 256) (h : Header) :
    pow.MeetsTarget P h ↔
      (BlockHasher.hash P h).toNat ≤ 2 ^ (256 - pow.targetDifficulty).toNat := by
  have hexponent := toNat_exponent hd
  have htarget : pow.sealTarget P = .ok (2 ^ (256 - pow.targetDifficulty).toNat) :=
    lsh_of_le (by omega)
  constructor
  · rintro ⟨target, hok, hle⟩
    obtain rfl := Except.ok.inj (htarget.symm.trans hok)
    exact hle
  · exact fun hle => ⟨_, htarget, hle⟩

/-- **Mining and verification agree.** Between the two calls the coinbase may be written. -/
theorem sealBlock_agrees {pow : PoWEngine} (hd : pow.targetDifficulty.toNat ≤ 256) (h : Header)
    (coinbase : Address) :
    (∀ late fuel h',
      pow.sealBlock P late fuel { pow.prepare h with coinbase := coinbase } = .ok h' →
        SealedFirst P pow { h with coinbase := coinbase } h') ∧
      ((∀ n : UInt64, n.toNat < 2 ^ 64 - 1 →
          ¬ pow.MeetsTarget P { pow.prepare h with coinbase := coinbase, nonce := n }) →
        ∀ late fuel h', pow.sealBlock P late fuel { pow.prepare h with coinbase := coinbase } ≠
          .ok h') := by
  have hexponent := toNat_exponent hd
  have hsealed : ∀ late fuel h',
      pow.sealBlock P late fuel { pow.prepare h with coinbase := coinbase } = .ok h' →
        SealedFirst P pow { h with coinbase := coinbase } h' := by
    intro late fuel h' hseal
    obtain ⟨target, htarget, hmine⟩ := Outcome.bind_eq_ok.mp hseal
    obtain ⟨hmem, rfl⟩ := lsh_eq_ok.mp (Outcome.ofExcept_eq_ok.mp htarget)
    obtain ⟨nonce, rfl, hlt, hmeets, hfirst⟩ := mine_first hmine
    refine ⟨verifyHeader_eq_ok.mpr ⟨hmem, hmeets⟩, rfl, hlt, (meetsTarget_iff hd _).mpr hmeets, ?_⟩
    intro n hn hbefore
    exact hfirst n (UInt64.zero_le) hn ((meetsTarget_iff hd _).mp hbefore)
  refine ⟨hsealed, fun hnone late fuel h' hseal => ?_⟩
  have hfound := hsealed late fuel h' hseal
  refine hnone h'.nonce hfound.nonce_lt ?_
  have hfields : h' = { pow.prepare h with coinbase := coinbase, nonce := h'.nonce } :=
    hfound.fields
  rw [← hfields]
  exact hfound.meets

/-- With two bits the second nonce is the first that meets the target. -/
def sampleMined : Header :=
  { sampleGenesis with coinbase := sampleAddress 1, difficulty := 2, nonce := 1 }

theorem sealBlock_agrees_sampleMined :
    (newPoWEngine 2).sealBlock .sample (fun _ => false) 2
        { (newPoWEngine 2).prepare sampleGenesis with coinbase := sampleAddress 1 } =
          .ok sampleMined ∧
      SealedFirst .sample (newPoWEngine 2) { sampleGenesis with coinbase := sampleAddress 1 }
        sampleMined := by
  have hseal : (newPoWEngine 2).sealBlock .sample (fun _ => false) 2
      { (newPoWEngine 2).prepare sampleGenesis with coinbase := sampleAddress 1 } =
        .ok sampleMined := by decide +kernel
  have hbits : (newPoWEngine 2).targetDifficulty.toNat ≤ 256 := by decide
  exact ⟨hseal, (sealBlock_agrees hbits sampleGenesis (sampleAddress 1)).1 _ _ _ hseal⟩

end PoWEngine

end Blockz
