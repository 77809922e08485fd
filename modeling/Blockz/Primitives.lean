import Blockz.Core.Records
import Blockz.Errors
import Blockz.Framework.Effect

/-!
# The library functions the node rests on

SHA-256, Keccak, ECDSA and gob are not part of the repository. They are the fields of `Primitives`,
over which the whole model is parametric; a result that needs one of them to behave in a certain way
states so as a hypothesis:

* `Primitives.IdealSignature` — a signature that `ecdsa.Sign` made verifies for exactly those byte
  strings that agree with the signed one on the leftmost 32 bytes, to which the package truncates
  its argument.
* `Primitives.ConstantDescriptor` — the gob stream of a header opens with a type descriptor of more
  than 32 bytes that does not depend on the values of the fields.

A decoder stands beside the encoder where one is needed (`GobCodec`); that values come back from
their encoding is again a hypothesis, `GobCodec.RoundTrips`.

The one bound that is built in is on memory: an allocation of more than `maxAlloc` bytes ends the
process, and on a 64-bit machine the runtime refuses anything above `2 ^ 48` bytes.
-/

namespace Blockz

open Effect

/-- The functions of the standard and third-party libraries, in one process. -/
structure Primitives where
  -- `sha256.Sum256`.
  sha256 : List UInt8 → Hash
  -- `sha3.NewLegacyKeccak256`, applied to the whole input.
  keccak256 : List UInt8 → Hash
  -- `elliptic.MarshalCompressed` on P-256.
  marshalCompressed : EcdsaPublicKey → List UInt8
  -- `ecdsa.Sign`; the last argument is what `rand.Reader` yields. The result is `(r, s)`.
  ecdsaSign : EcdsaPrivateKey → List UInt8 → ℕ → Outcome Err (ℤ × ℤ)
  -- `ecdsa.Verify` on `r` and `s`.
  ecdsaVerify : EcdsaPublicKey → List UInt8 → ℤ → ℤ → Bool
  -- A fresh gob encoder applied to a header.
  gobHeader : Header → List UInt8
  -- A fresh gob encoder applied to the exported fields of a transaction.
  gobTransaction : Transaction → Outcome Err (List UInt8)
  -- The largest allocation, in bytes.
  maxAlloc : ℕ
  maxAlloc_le : maxAlloc ≤ 2 ^ 48
  le_maxAlloc : 2 ^ 16 ≤ maxAlloc

namespace Primitives

/-- The leftmost 32 bytes: the part of its argument that `crypto/ecdsa` uses on P-256. -/
def truncate (data : List UInt8) : List UInt8 := data.take 32

/-- **Ideal signatures.** What was signed is the truncated byte string, and nothing else verifies
under that signature. -/
def IdealSignature (P : Primitives) : Prop :=
  ∀ key data rand r s, P.ecdsaSign key data rand = .ok (r, s) →
    ∀ data', P.ecdsaVerify key.publicKey data' r s = true ↔ truncate data' = truncate data

/-- **The gob type descriptor.** Every header is encoded behind the same opening bytes, more than
32 of them. -/
def ConstantDescriptor (P : Primitives) : Prop :=
  ∃ descriptor : List UInt8, 32 < descriptor.length ∧ ∀ h, descriptor <+: P.gobHeader h

/-- Under a constant descriptor, ECDSA sees the same 32 bytes of every header. -/
theorem ConstantDescriptor.truncate_eq {P : Primitives} (hP : P.ConstantDescriptor)
    (h h' : Header) : truncate (P.gobHeader h) = truncate (P.gobHeader h') := by
  obtain ⟨descriptor, hlen, hprefix⟩ := hP
  have htake : ∀ g, truncate (P.gobHeader g) = truncate descriptor := by
    intro g
    obtain ⟨rest, hrest⟩ := hprefix g
    unfold truncate
    rw [← hrest, List.take_append_of_le_length (by omega)]
  rw [htake h, htake h']

end Primitives

/-- Gob on the values of one type, with a new encoder or decoder for every value. -/
structure GobCodec (ν : Type) where
  encode : ν → Outcome Err (List UInt8)
  decode : List UInt8 → Outcome Err ν

/-- The value comes back from its encoding, in the form that gob carries it. -/
def GobCodec.RoundTrips {ν : Type} (c : GobCodec ν) (carried : ν → ν) (x : ν) : Prop :=
  ∃ bytes, c.encode x = .ok bytes ∧ c.decode bytes = .ok (carried x)

end Blockz
