import Blockz.Primitives

/-!
# Key pairs and signatures

`crypto/keypair.go`. Signing hands the data to `ecdsa.Sign` as it is, without hashing it first,
and verification hands it to `ecdsa.Verify` in the same way. Both functions dereference the key
and the two integers of the signature, so a nil pointer panics.
-/

namespace Blockz

open Effect

variable (P : Primitives)

/-- `PrivateKey.Sign`. -/
def PrivateKey.sign (k : PrivateKey) (data : List UInt8) (rand : ℕ) : Outcome Err Signature := do
  let (r, s) ← P.ecdsaSign k.key data rand
  pure { r := some r, s := some s }

/-- `Signature.Verify`. -/
def Signature.verify (sig : Signature) (pubKey : PublicKey) (data : List UInt8) :
    Outcome Err Bool := do
  let key ← Outcome.deref pubKey.key
  let r ← Outcome.deref sig.r
  let s ← Outcome.deref sig.s
  pure (P.ecdsaVerify key data r s)

/-- The last 20 bytes of the SHA-256 hash of the compressed key. -/
def EcdsaPublicKey.address (k : EcdsaPublicKey) : Address where
  bytes := (P.sha256 (P.marshalCompressed k)).bytes.drop 12
  length_eq := by rw [List.length_drop, (P.sha256 _).length_eq]

/-- `PublicKey.Address`. -/
def PublicKey.address (k : PublicKey) : Outcome Err Address := do
  let key ← Outcome.deref k.key
  pure (key.address P)

variable {P}

theorem PublicKey.address_eq_ok {k : PublicKey} {a : Address} :
    k.address P = .ok a ↔ ∃ key, k.key = some key ∧ key.address P = a := by
  unfold PublicKey.address
  cases hk : k.key with
  | none => simp
  | some key => simp [pure]

/-- **What a signature covers.** A signature made by `PrivateKey.Sign` verifies, under the public
key of the signer, for exactly the data that agree with the signed data on the leftmost 32
bytes. -/
theorem Signature.verify_of_sign (hP : P.IdealSignature) {k : PrivateKey} {data : List UInt8}
    {rand : ℕ} {sig : Signature} (hsign : k.sign P data rand = .ok sig) (data' : List UInt8) :
    sig.verify P k.publicKey data' =
      .ok (decide (Primitives.truncate data' = Primitives.truncate data)) := by
  unfold PrivateKey.sign at hsign
  obtain ⟨⟨r, s⟩, hrs, hsig⟩ := Outcome.bind_eq_ok.mp hsign
  obtain rfl : { r := some r, s := some s } = sig := Outcome.ok.inj hsig
  have hver := hP k.key data rand r s hrs data'
  have hbool : P.ecdsaVerify k.key.publicKey data' r s =
      decide (Primitives.truncate data' = Primitives.truncate data) := by
    rw [Bool.eq_iff_iff, hver, decide_eq_true_iff]
  change Outcome.ok (P.ecdsaVerify k.key.publicKey data' r s) = _
  rw [hbool]

end Blockz
