import Blockz.Core.Block
import Mathlib.Data.Countable.Basic
import Mathlib.Data.FinEnum
import Mathlib.Logic.Equiv.List
import Mathlib.Tactic.DeriveCountable

/-!
# A concrete choice of the primitives

The results of the development hold for every `Primitives`. To run the model on a concrete input one
choice has to be made. `Primitives.sample` reads a byte string as a number in base 257; its digest
is that number modulo a prime, its signature is the number of the truncated string together with a
coordinate of the key, and its gob encoding puts a fixed descriptor in front of the fields.

`sample_idealSignature` and `sample_constantDescriptor` show that the two hypotheses which other
results make about the primitives can be met, and met together. `GobCodec.exists_roundTrips` does
the same for what is asked of gob decoders.
-/

namespace Blockz

open Effect

/-- A byte string as a number. The digits run from 1 to 256, so no byte is lost at the end. -/
def byteCode (bs : List UInt8) : ℕ := bs.foldr (fun b n => n * 257 + (b.toNat + 1)) 0

theorem byteCode_cons (b : UInt8) (bs : List UInt8) :
    byteCode (b :: bs) = byteCode bs * 257 + (b.toNat + 1) := rfl

theorem byteCode_injective : Function.Injective byteCode := by
  intro bs
  induction bs with
  | nil =>
    intro cs h
    cases cs with
    | nil => rfl
    | cons c cs =>
      rw [byteCode_cons] at h
      change 0 = _ at h
      omega
  | cons b bs ih =>
    intro cs h
    cases cs with
    | nil =>
      rw [byteCode_cons] at h
      change _ = 0 at h
      omega
    | cons c cs =>
      rw [byteCode_cons, byteCode_cons] at h
      have hb := b.toNat_lt
      have hc := c.toNat_lt
      -- the last digit and the rest are the remainder and the quotient by 257
      have hdigit : b.toNat = c.toNat := by omega
      have hrest : byteCode bs = byteCode cs := by omega
      rw [UInt8.toNat_inj.mp hdigit, ih hrest]

/-- The big-endian bytes of a number, cut to `width` of them. -/
def fixedBytes (width n : ℕ) : List UInt8 :=
  (List.range width).map fun i => UInt8.ofNat (n / 256 ^ (width - 1 - i))

def sampleDigest (bs : List UInt8) : Hash where
  bytes := fixedBytes 32 (byteCode bs % (2 ^ 256 - 189))
  length_eq := by rw [fixedBytes, List.length_map, List.length_range]

def sampleDescriptor : List UInt8 := List.replicate 40 7

def sampleHeaderFields (h : Header) : List UInt8 :=
  fixedBytes 4 h.version.toNat ++ h.dataHash.bytes ++ h.prevBlockHash.bytes ++ h.stateRoot.bytes ++
    fixedBytes 4 h.height.toNat ++ fixedBytes 8 h.timestamp.toUInt64.toNat ++
    fixedBytes 8 h.nonce.toNat ++ fixedBytes 8 h.difficulty.toNat ++ h.coinbase.bytes

def sampleTransactionFields (tx : Transaction) : List UInt8 :=
  fixedBytes 8 tx.data.length ++ tx.data ++ tx.toAddr.bytes ++ fixedBytes 8 tx.value.toNat ++
    fixedBytes 8 tx.nonce.toNat ++ fixedBytes 8 tx.gasLimit.toNat ++
    fixedBytes 8 tx.gasPrice.toNat

/-- The first component of a signature: it determines the truncated data. -/
def sampleTag (data : List UInt8) : ℤ := byteCode (Primitives.truncate data)

/-- One choice of the library functions. -/
def Primitives.sample : Primitives where
  sha256 := sampleDigest
  keccak256 := sampleDigest
  marshalCompressed k := fixedBytes 33 k.x
  ecdsaSign key data _ := .ok (sampleTag data, key.publicKey.x)
  ecdsaVerify key data r s := decide (r = sampleTag data ∧ s = key.x)
  gobHeader h := sampleDescriptor ++ sampleHeaderFields h
  gobTransaction tx := .ok (sampleTransactionFields tx)
  maxAlloc := 2 ^ 48
  maxAlloc_le := le_rfl
  le_maxAlloc := by norm_num

theorem sample_idealSignature : Primitives.sample.IdealSignature := by
  intro key data rand r s hsign data'
  obtain ⟨rfl, rfl⟩ := Prod.mk.inj (Outcome.ok.inj hsign)
  change decide (sampleTag data = sampleTag data' ∧ _) = true ↔ _
  rw [decide_eq_true_iff]
  constructor
  · rintro ⟨htag, -⟩
    exact (byteCode_injective (Int.ofNat.inj htag)).symm
  · intro htrunc
    unfold sampleTag
    exact ⟨by rw [htrunc], rfl⟩

theorem sample_constantDescriptor : Primitives.sample.ConstantDescriptor := by
  refine ⟨sampleDescriptor, by decide, ?_⟩
  intro h
  exact List.prefix_append _ _

/-! ### Codecs -/

deriving instance Countable for Hash, Address, EcdsaPublicKey
deriving instance Countable for PublicKey, Signature, Header
deriving instance Countable for Transaction
deriving instance Countable for Block

/-- A countable type has an encoding that loses nothing but what it is meant to lose. -/
theorem GobCodec.exists_roundTrips {ν : Type} [Countable ν] (carried : ν → ν) :
    ∃ c : GobCodec ν, ∀ x, c.RoundTrips carried x := by
  classical
  obtain ⟨number, hinj⟩ := exists_injective_nat ν
  -- a value is written in unary
  refine ⟨⟨fun x => .ok (List.replicate (number (carried x)) 0), fun bytes =>
    if h : ∃ y, number y = bytes.length then .ok h.choose else .err (.library "")⟩, fun x => ?_⟩
  have hread : ∃ y, number y = (List.replicate (number (carried x)) (0 : UInt8)).length :=
    ⟨carried x, List.length_replicate.symm⟩
  refine ⟨_, rfl, (dif_pos hread).trans (congrArg Outcome.ok ?_)⟩
  exact hinj (hread.choose_spec.trans List.length_replicate)

/-! ### Signed transactions and blocks over the sample -/

def sampleKey : PrivateKey := ⟨⟨⟨5, 6⟩, 7⟩⟩

def sampleAddress (n : UInt8) : Address := ⟨List.replicate 20 n, List.length_replicate⟩

/-- What `sampleKey` signs `data` with. -/
def sampleSignature (data : List UInt8) : Signature := ⟨some 5, some (sampleTag data)⟩

/-- A transfer that `sampleKey` has signed. Its code is the one instruction `STOP`: there has to be
something to sign. -/
def sampleTransfer (value nonce : UInt64) : Transaction where
  data := [0]
  toAddr := sampleAddress 2
  value := value
  nonce := nonce
  gasLimit := 1
  gasPrice := 0
  fromKey := sampleKey.publicKey
  signature := some (sampleSignature [0])

def sampleGenesis : Header where
  version := 1
  dataHash := Hash.zero
  prevBlockHash := Hash.zero
  stateRoot := Hash.zero
  height := 0
  timestamp := 0
  nonce := 0
  difficulty := 0
  coinbase := sampleAddress 0

/-- The header of a block on top of `prev`. -/
def sampleHeader (prev : Header) (txx : List Transaction) (coinbase : Address) : Header :=
  { prev with
    dataHash := sampleDigest (txx.flatMap fun tx => sampleTransactionFields tx.exported)
    prevBlockHash := BlockHasher.hash .sample prev
    height := prev.height + 1
    coinbase := coinbase }

/-- A block on top of `prev` that `sampleKey` has signed. -/
def sampleBlock (prev : Header) (txx : List Transaction) (coinbase : Address) : Block where
  header := some (sampleHeader prev txx coinbase)
  transactions := txx
  validator := sampleKey.publicKey
  signature := some (sampleSignature ((sampleHeader prev txx coinbase).bytes .sample))

theorem verify_sampleSignature (data : List UInt8) :
    (sampleSignature data).verify .sample sampleKey.publicKey data = .ok true := by
  show Outcome.ok (decide (sampleTag data = sampleTag data ∧ (5 : ℤ) = (5 : ℕ))) = _
  simp

/-- Signed blocks without transactions verify. -/
theorem verify_sampleBlock (prev : Header) (coinbase : Address) :
    (sampleBlock prev [] coinbase).verify .sample = .ok () :=
  Block.verify_of_checks rfl rfl (verify_sampleSignature _)
    (fun _ hmem => absurd hmem List.not_mem_nil) rfl

end Blockz
